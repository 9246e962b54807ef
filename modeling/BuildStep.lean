import BuildStep.Main
import BuildStep.Proofs.Record.Joining
import BuildStep.Proofs.Record.Readings
import BuildStep.Proofs.Record.Alone
import BuildStep.Proofs.Record.BlankPaths
import BuildStep.Proofs.HostConfig.Bindings
import BuildStep.Proofs.Json.Records
import BuildStep.Proofs.Stream.Interruptions
import BuildStep.Proofs.Stream.Reserved
import BuildStep.Proofs.Stream.Finality
import BuildStep.Proofs.Stream.Captures
import BuildStep.Proofs.Stream.Delay
import BuildStep.Proofs.Stream.LookBack
import BuildStep.Proofs.Stream.Guarded
import BuildStep.Proofs.Command.LogSize
import BuildStep.Proofs.Log.Race
import BuildStep.Proofs.Log.Series
import BuildStep.Proofs.Tail.LastPass
import BuildStep.Proofs.Tail.Readers
import BuildStep.Proofs.Tail.Termination
