import BuildStep.Log.File
import BuildStep.Proofs.Text.Cutting
import Mathlib.Logic.Function.Iterate

/-!
# Where the paths of a log and of its marker lead

As long as no directory is removed, a path that leads to a file goes on leading to the same entry,
whatever is done to files.  The marker of a log lies in the directory of the log, under another name.

## Key results

- `resolve_of_keeps`: a path goes on leading where it led
- `markerPath_ne`, `resolve_markerPath_of_keeps`: the marker of a log is another entry than the log,
  and its path leads there as long as the path of the log does
- `node?_put_self`, `node?_put_of_ne`, `node?_delete_of_ne`, `node?_appendTo`: what operations on
  files do to the entries
-/

namespace BuildStep.Disk

/-! ## Entries -/

theorem lookup_filter_of_ne {entries : List (List Text × Node)} {names other : List Text}
    (h : other ≠ names) :
    (entries.filter fun entry => entry.1 != names).lookup other = entries.lookup other := by
  induction entries with
  | nil => rfl
  | cons entry rest ih =>
    by_cases hentry : entry.1 = names
    · have hother : (other == entry.1) = false := by
        rw [hentry]
        exact beq_eq_false_iff_ne.mpr h
      rw [List.filter_cons_of_neg (by simp [hentry]), List.lookup_cons, hother, ih]
    · rw [List.filter_cons_of_pos (by simpa using hentry), List.lookup_cons, List.lookup_cons, ih]

/-- Other entries stay as they are when one is put. -/
theorem node?_put_of_ne {names other : List Text} (h : other ≠ names) (d : Disk) (node : Node) :
    (d.put names node).node? other = d.node? other := by
  have hne : (other == names) = false := beq_eq_false_iff_ne.mpr h
  simp only [node?, put, List.lookup_cons, hne, lookup_filter_of_ne h]

/-- What is put is there, unless it is put where a directory always is. -/
theorem node?_put_self {names : List Text} {d : Disk} (h : d.node? names ≠ some .directory)
    (node : Node) : (d.put names node).node? names = some node := by
  rw [node?] at h ⊢
  split
  · rename_i haround
    rw [if_pos haround] at h
    exact absurd rfl h
  · rw [put, List.lookup_cons_self]

theorem node?_delete_of_ne {names other : List Text} (h : other ≠ names) (d : Disk) :
    (d.delete names).node? other = d.node? other := by
  simp only [node?, delete, lookup_filter_of_ne h]

theorem node?_delete_self {names : List Text} {d : Disk} (h : d.node? names ≠ some .directory) :
    (d.delete names).node? names = none := by
  rw [node?] at h ⊢
  split
  · rename_i haround
    rw [if_pos haround] at h
    exact absurd rfl h
  · rw [delete, List.lookup_eq_none_iff]
    intro entry hentry
    obtain ⟨-, hother⟩ := List.mem_filter.mp hentry
    rw [bne_iff_ne] at hother
    simpa using hother.symm

theorem lookup_map (f : Node → Node) (entries : List (List Text × Node)) (names : List Text) :
    (entries.map fun entry => (entry.1, f entry.2)).lookup names =
      (entries.lookup names).map f := by
  induction entries with
  | nil => rfl
  | cons entry rest ih =>
    rw [List.map_cons, List.lookup_cons, List.lookup_cons, ih]
    cases names == entry.1 <;> rfl

/-- Writing at the end of a file changes the entries of this file only. -/
theorem node?_appendTo (d : Disk) (serial : Nat) (bytes : List UInt8) (names : List Text) :
    (d.appendTo serial bytes).node? names = (d.node? names).map (Node.appendTo serial bytes) := by
  rw [node?, node?]
  split
  · rfl
  · exact lookup_map _ _ _

/-! ## Disks that keep their directories -/

/-- Every directory of the first disk is one of the second. -/
def Keeps (d d' : Disk) : Prop :=
  ∀ names, d.node? names = some .directory → d'.node? names = some .directory

theorem Keeps.refl (d : Disk) : Keeps d d := fun _ h => h

/-- Where nothing is, all directories are those that are always there. -/
theorem keeps_empty (d : Disk) : Keeps empty d := by
  intro names h
  rw [node?] at h ⊢
  split at h
  · rename_i haround
    rw [if_pos haround]
  · cases h

theorem keeps_put {names : List Text} {d : Disk} (h : d.node? names ≠ some .directory)
    (node : Node) : Keeps d (d.put names node) := by
  intro other hother
  have hne : other ≠ names := by
    rintro rfl
    exact h hother
  rw [node?_put_of_ne hne, hother]

theorem keeps_delete {names : List Text} {d : Disk} (h : d.node? names ≠ some .directory) :
    Keeps d (d.delete names) := by
  intro other hother
  have hne : other ≠ names := by
    rintro rfl
    exact h hother
  rw [node?_delete_of_ne hne, hother]

theorem keeps_appendTo (d : Disk) (serial : Nat) (bytes : List UInt8) :
    Keeps d (d.appendTo serial bytes) := by
  intro other hother
  rw [node?_appendTo, hother]
  rfl

/-! ## Following names -/

/-- The name is that of something in a directory, and no way to say where to go. -/
def IsPlain (name : Text) : Prop :=
  name ≠ ['.'] ∧ name ≠ ['.', '.']

theorem follow_dot (d : Disk) (directory rest : List Text) :
    d.follow directory (['.'] :: rest) = d.follow directory rest := by
  rw [follow]

theorem follow_up (d : Disk) (directory rest : List Text) :
    d.follow directory (['.', '.'] :: rest) = d.follow (parent directory) rest := by
  rw [follow]

theorem follow_singleton {name : Text} (h : IsPlain name) (d : Disk) (directory : List Text) :
    d.follow directory [name] = child directory name :=
  follow.eq_4 d directory name h.1 h.2

theorem follow_cons {name : Text} {rest : List Text} (h : IsPlain name) (hrest : rest ≠ [])
    (d : Disk) (directory : List Text) :
    d.follow directory (name :: rest) =
      match child directory name with
      | .error e => .error e
      | .ok names =>
        match d.node? names with
        | some .directory => d.follow names rest
        | some _ => .error .notADirectory
        | none => .error .notFound :=
  follow.eq_5 d directory name rest h.1 h.2 hrest

theorem child_eq_ok {directory names : List Text} {name : Text}
    (h : child directory name = .ok names) : names = directory ++ [name] := by
  rw [child] at h
  split at h
  · cases h
  · exact (Except.ok.inj h).symm

/-- A step through a plain name leads into a directory. -/
theorem follow_cons_eq_ok {name : Text} {rest directory names : List Text} {d : Disk}
    (h : IsPlain name) (hrest : rest ≠ []) (hfollow : d.follow directory (name :: rest) = .ok names) :
    child directory name = .ok (directory ++ [name]) ∧
      d.node? (directory ++ [name]) = some .directory ∧
      d.follow (directory ++ [name]) rest = .ok names := by
  rw [follow_cons h hrest] at hfollow
  split at hfollow
  · cases hfollow
  · rename_i inner hchild
    obtain rfl := child_eq_ok hchild
    split at hfollow
    · rename_i hdirectory
      exact ⟨hchild, hdirectory, hfollow⟩
    · cases hfollow
    · cases hfollow

/-- A path whose last name is plain leads to a directory first.  Every other name in its place is
looked for in the same directory, also on a disk that has more directories. -/
theorem exists_follow_eq_child {d : Disk} {last : Text} (hlast : IsPlain last)
    {init directory names : List Text} (h : d.follow directory (init ++ [last]) = .ok names) :
    ∃ inner, names = inner ++ [last] ∧ ∀ d', Keeps d d' → ∀ other, IsPlain other →
      d'.follow directory (init ++ [other]) = child inner other := by
  induction init generalizing directory with
  | nil =>
    rw [List.nil_append, follow_singleton hlast] at h
    refine ⟨directory, child_eq_ok h, ?_⟩
    intro d' _ other hother
    exact follow_singleton hother d' directory
  | cons name init ih =>
    rw [List.cons_append] at h
    by_cases hdot : name = ['.']
    · subst hdot
      rw [follow_dot] at h
      obtain ⟨inner, hnames, hothers⟩ := ih h
      refine ⟨inner, hnames, ?_⟩
      intro d' hkeeps other hother
      rw [List.cons_append, follow_dot, hothers d' hkeeps other hother]
    by_cases hup : name = ['.', '.']
    · subst hup
      rw [follow_up] at h
      obtain ⟨inner, hnames, hothers⟩ := ih h
      refine ⟨inner, hnames, ?_⟩
      intro d' hkeeps other hother
      rw [List.cons_append, follow_up, hothers d' hkeeps other hother]
    · -- the path goes through a directory, which the other disk has as well
      have hplain : IsPlain name := ⟨hdot, hup⟩
      have hrest : ∀ other : Text, init ++ [other] ≠ [] := by simp
      obtain ⟨hchild, hdirectory, h⟩ := follow_cons_eq_ok hplain (hrest last) h
      obtain ⟨inner, hnames, hothers⟩ := ih h
      refine ⟨inner, hnames, ?_⟩
      intro d' hkeeps other hother
      rw [List.cons_append, follow_cons hplain (hrest other), hchild]
      simp only [hkeeps _ hdirectory]
      exact hothers d' hkeeps other hother

/-! ## Where a path ends that does not end in a plain name -/

/-- The names are those of a directory, and so is every directory that it lies in. -/
def Rooted (d : Disk) (directory : List Text) : Prop :=
  ∀ n : Nat, d.node? (parent^[n] directory) = some .directory

theorem Rooted.node? {d : Disk} {directory : List Text} (h : Rooted d directory) :
    d.node? directory = some .directory :=
  h 0

theorem Rooted.parent {d : Disk} {directory : List Text} (h : Rooted d directory) :
    Rooted d (parent directory) := by
  intro n
  exact h (n + 1)

theorem rooted_root (d : Disk) : Rooted d root := by
  intro n
  have hroot : Disk.parent root = root := by decide
  rw [Function.iterate_fixed hroot, Disk.node?, if_pos (.inr rfl)]

theorem isAround_parent {directory : List Text} (h : isAround directory = true) :
    isAround (parent directory) = true := by
  rw [Disk.parent, if_pos h]
  rw [isAround] at h ⊢
  rw [List.all_append, h]
  decide

theorem rooted_of_isAround (d : Disk) {directory : List Text} (h : isAround directory = true) :
    Rooted d directory := by
  have hall : ∀ n : Nat, isAround (Disk.parent^[n] directory) = true := by
    intro n
    induction n with
    | zero => exact h
    | succ n ih =>
      rw [Function.iterate_succ_apply']
      exact isAround_parent ih
  intro n
  rw [Disk.node?, if_pos (.inl (hall n))]

theorem rooted_append {d : Disk} {directory : List Text} {name : Text} (h : Rooted d directory)
    (hnode : d.node? (directory ++ [name]) = some .directory) : Rooted d (directory ++ [name]) := by
  by_cases haround : isAround (directory ++ [name]) = true
  · exact rooted_of_isAround d haround
  by_cases hroot : directory ++ [name] = root
  · rw [hroot]
    exact rooted_root d
  · have hparent : Disk.parent (directory ++ [name]) = directory := by
      rw [Disk.parent, if_neg haround, if_neg hroot, List.dropLast_concat]
    intro n
    cases n with
    | zero => exact hnode
    | succ n =>
      rw [Function.iterate_succ_apply, hparent]
      exact h n

/-- A path whose last name is not plain leads to a directory. -/
theorem rooted_follow {d : Disk} {last : Text} (hlast : ¬ IsPlain last)
    {init directory names : List Text} (hdirectory : Rooted d directory)
    (h : d.follow directory (init ++ [last]) = .ok names) : Rooted d names := by
  induction init generalizing directory with
  | nil =>
    rw [List.nil_append] at h
    by_cases hdot : last = ['.']
    · rw [hdot, follow_dot] at h
      cases h
      exact hdirectory
    · have hup : last = ['.', '.'] := by
        by_contra hup
        exact hlast ⟨hdot, hup⟩
      rw [hup, follow_up] at h
      cases h
      exact hdirectory.parent
  | cons name init ih =>
    rw [List.cons_append] at h
    by_cases hdot : name = ['.']
    · rw [hdot, follow_dot] at h
      exact ih hdirectory h
    by_cases hup : name = ['.', '.']
    · rw [hup, follow_up] at h
      exact ih hdirectory.parent h
    · -- the rest starts in a directory that lies in the one before
      obtain ⟨-, hnode, h⟩ := follow_cons_eq_ok ⟨hdot, hup⟩ (by simp) h
      exact ih (rooted_append hdirectory hnode) h

/-! ## Paths -/

theorem rooted_startOf (d : Disk) (path : Text) : Rooted d (startOf path) := by
  rw [startOf]
  split
  · exact rooted_root d
  · exact rooted_of_isAround d rfl

/-- A path that is not written as that of a directory has a last name, and what is written behind
the path is written behind this name. -/
theorem exists_namesOf_append {path : Text} (hne : path ≠ []) (hslash : path.getLast? ≠ some '/') :
    ∃ init last, ∀ suffix : Text, '/' ∉ suffix →
      namesOf (path ++ suffix) = init ++ [last ++ suffix] := by
  have hnames : ∀ t : Text, t ≠ [] → '/' ∉ t → namesOf t = [t] := by
    intro t ht hno
    rw [namesOf, List.splitOn_eq_singleton hno, List.filter_cons_of_pos (by simpa using ht),
      List.filter_nil]
  by_cases hin : '/' ∈ path
  · -- the last name is what stands behind the last slash
    obtain ⟨back, front, hreverse, hno⟩ :=
      List.eq_append_cons_of_mem (List.mem_reverse.mpr hin)
    have hpath : path = front.reverse ++ '/' :: back.reverse := by
      rw [← List.reverse_reverse path, hreverse]
      simp
    have hback : back.reverse ≠ [] := by
      intro hnil
      rw [hnil] at hpath
      rw [hpath] at hslash
      simp at hslash
    refine ⟨namesOf front.reverse, back.reverse, ?_⟩
    intro suffix hsuffix
    have hno' : '/' ∉ back.reverse ++ suffix := by
      rw [List.mem_append, List.mem_reverse]
      rintro (h | h)
      · exact hno h
      · exact hsuffix h
    have hlast : namesOf (back.reverse ++ suffix) = [back.reverse ++ suffix] :=
      hnames _ (List.append_ne_nil_of_left_ne_nil hback suffix) hno'
    rw [← hlast, hpath, List.append_assoc, List.cons_append, namesOf,
      List.splitOn_append_cons_self, List.filter_append]
    rfl
  · refine ⟨[], path, ?_⟩
    intro suffix hsuffix
    have hno' : '/' ∉ path ++ suffix := by
      rw [List.mem_append]
      rintro (h | h)
      · exact hin h
      · exact hsuffix h
    exact hnames _ (List.append_ne_nil_of_left_ne_nil hne suffix) hno'

theorem resolve_eq_ok {d : Disk} {path : Text} {location : Location}
    (h : d.resolve path = .ok location) :
    path ≠ [] ∧ d.follow (startOf path) (namesOf path) = .ok location.names ∧
      location.asDirectory = decide (path.getLast? = some '/') := by
  rw [resolve] at h
  split at h; · cases h
  split at h; · cases h
  split at h; · cases h
  rename_i hne _
  cases hfollow : d.follow (startOf path) (namesOf path) with
  | error e =>
    rw [hfollow] at h
    cases h
  | ok names =>
    rw [hfollow] at h
    cases h
    exact ⟨by simpa using hne, rfl, rfl⟩

/-- A path that leads to something else than a directory can be taken apart: there is a directory,
and a plain name in it.  What is written behind the path is looked for in the same directory. -/
theorem exists_directory {d : Disk} {path : Text} {location : Location}
    (h : d.resolve path = .ok location) (hnode : d.node? location.names ≠ some .directory)
    (hfile : location.asDirectory = false) :
    ∃ inner last, IsPlain last ∧ location.names = inner ++ [last] ∧
      ∀ d', Keeps d d' → ∀ suffix : Text, '/' ∉ suffix → IsPlain (last ++ suffix) →
        d'.follow (startOf (path ++ suffix)) (namesOf (path ++ suffix)) =
          child inner (last ++ suffix) := by
  obtain ⟨hne, hfollow, hslash⟩ := resolve_eq_ok h
  rw [hfile] at hslash
  obtain ⟨init, last, hnames⟩ := exists_namesOf_append hne (of_decide_eq_false hslash.symm)
  have hnil := hnames [] List.not_mem_nil
  rw [List.append_nil, List.append_nil] at hnil
  rw [hnil] at hfollow
  -- otherwise the path would lead to a directory
  have hplain : IsPlain last := by
    by_contra hplain
    exact hnode (rooted_follow hplain (rooted_startOf d path) hfollow).node?
  obtain ⟨inner, hinner, hothers⟩ := exists_follow_eq_child hplain hfollow
  refine ⟨inner, last, hplain, hinner, ?_⟩
  intro d' hkeeps suffix hsuffix hplain
  have hstart : startOf (path ++ suffix) = startOf path := by
    rw [startOf, startOf, List.head?_append_of_ne_nil _ hne]
  rw [hstart, hnames suffix hsuffix]
  exact hothers d' hkeeps _ hplain

/-- A path that leads to something else than a directory goes on leading there. -/
theorem resolve_of_keeps {d d' : Disk} (hkeeps : Keeps d d') {path : Text} {location : Location}
    (h : d.resolve path = .ok location) (hnode : d.node? location.names ≠ some .directory)
    (hfile : location.asDirectory = false) : d'.resolve path = .ok location := by
  obtain ⟨inner, last, hplain, -, hothers⟩ := exists_directory h hnode hfile
  have hsame : d'.follow (startOf path) (namesOf path) = d.follow (startOf path) (namesOf path) := by
    have hthere := hothers d' hkeeps [] List.not_mem_nil (by rwa [List.append_nil])
    have hhere := hothers d (Keeps.refl d) [] List.not_mem_nil (by rwa [List.append_nil])
    rw [List.append_nil, List.append_nil] at hthere hhere
    rw [hthere, hhere]
  rw [resolve, hsame]
  exact h

/-- The marker of a log is looked for in the directory of the log. -/
theorem exists_follow_markerPath {d : Disk} {path : Text} {location : Location}
    (h : d.resolve path = .ok location) (hnode : d.node? location.names ≠ some .directory)
    (hfile : location.asDirectory = false) :
    ∃ inner last, location.names = inner ++ [last] ∧ ∀ d', Keeps d d' →
      d'.follow (startOf (FileLog.markerPath path)) (namesOf (FileLog.markerPath path)) =
        child inner (last ++ ".live".toList) := by
  obtain ⟨inner, last, -, hinner, hothers⟩ := exists_directory h hnode hfile
  have hlong : ∀ t : Text, t.length ≤ 2 → last ++ ".live".toList ≠ t := by
    rintro t ht rfl
    simp at ht
  refine ⟨inner, last, hinner, fun d' hkeeps => ?_⟩
  exact hothers d' hkeeps ".live".toList (by decide) ⟨hlong _ (by decide), hlong _ (by decide)⟩

/-- The marker of a log is another entry than the log, and is not written as a directory. -/
theorem markerPath_ne {d d' : Disk} (hkeeps : Keeps d d') {path : Text}
    {location location' : Location} (h : d.resolve path = .ok location)
    (hnode : d.node? location.names ≠ some .directory) (hfile : location.asDirectory = false)
    (h' : d'.resolve (FileLog.markerPath path) = .ok location') :
    location'.names ≠ location.names ∧ location'.asDirectory = false := by
  obtain ⟨inner, last, hinner, hmarker⟩ := exists_follow_markerPath h hnode hfile
  obtain ⟨-, hfollow, hslash⟩ := resolve_eq_ok h'
  rw [hmarker d' hkeeps] at hfollow
  refine ⟨?_, ?_⟩
  · rw [child_eq_ok hfollow, hinner]
    intro hsame
    have hlast := List.append_cancel_left hsame
    simp at hlast
  · rw [hslash, FileLog.markerPath, List.getLast?_append]
    rfl

/-- The path of the marker of a log goes on leading where it led, if it led anywhere. -/
theorem resolve_markerPath_of_keeps {d d' : Disk} (hkeeps : Keeps d d') {path : Text}
    {location : Location} (h : d.resolve path = .ok location)
    (hnode : d.node? location.names ≠ some .directory) (hfile : location.asDirectory = false) :
    d'.resolve (FileLog.markerPath path) = d.resolve (FileLog.markerPath path) := by
  obtain ⟨inner, last, -, hmarker⟩ := exists_follow_markerPath h hnode hfile
  rw [resolve, resolve, hmarker d' hkeeps, hmarker d (Keeps.refl d)]

/-- The marker of a log is not there where nothing is: it is none of the directories that always
are. -/
theorem isThere_markerPath_empty {path : Text} {location : Location}
    (h : empty.resolve path = .ok location) (hnode : empty.node? location.names ≠ some .directory)
    (hfile : location.asDirectory = false) : empty.isThere (FileLog.markerPath path) = false := by
  obtain ⟨inner, last, -, hmarker⟩ := exists_follow_markerPath h hnode hfile
  cases hresolve : empty.resolve (FileLog.markerPath path) with
  | error e => simp [isThere, Disk.get, hresolve, bind, Except.bind]
  | ok location' =>
    obtain ⟨-, hfollow, -⟩ := resolve_eq_ok hresolve
    rw [hmarker empty (Keeps.refl empty)] at hfollow
    have hlong : ∀ t : Text, t.length ≤ 2 → last ++ ".live".toList ≠ t := by
      rintro t ht rfl
      simp at ht
    have hnone : empty.node? location'.names = none := by
      rw [child_eq_ok hfollow, node?, if_neg]
      · rfl
      rintro (haround | hroot)
      · rw [isAround, List.all_append, Bool.and_eq_true] at haround
        exact hlong up (by decide) (by simpa using haround.2)
      · have hlast := List.append_inj_right' (hroot.trans (List.nil_append root).symm) rfl
        exact hlong ['/'] (by decide) (List.cons.inj hlast).1
    simp [isThere, Disk.get, hresolve, hnone, bind, Except.bind]

/-! ## Files -/

/-- The path leads to a file. -/
structure Holds (d : Disk) (path : Text) (names : List Text) (serial : Nat)
    (content : List UInt8) : Prop where
  leads : d.resolve path = .ok ⟨names, false⟩
  node : d.node? names = some (.file serial content)

section Holds

variable {d : Disk} {path : Text} {names : List Text} {serial : Nat} {content : List UInt8}

theorem Holds.not_directory (h : d.Holds path names serial content) :
    d.node? names ≠ some .directory := by
  rw [h.node]
  simp

theorem Holds.get (h : d.Holds path names serial content) :
    d.get path = .ok (.file serial content) := by
  simp [Disk.get, h.leads, h.node, bind, Except.bind]

theorem Holds.read (h : d.Holds path names serial content) : d.read path = .ok content := by
  simp [Disk.read, h.get, bind, Except.bind]

theorem Holds.isThere? (h : d.Holds path names serial content) : d.isThere? path = .ok true := by
  simp [Disk.isThere?, h.get]

theorem isThere_of_resolve (h : d.resolve path = .ok ⟨names, false⟩) :
    d.isThere path = (d.node? names).isSome := by
  simp only [isThere, Disk.get, h, bind, Except.bind]
  cases d.node? names with
  | none => rfl
  | some node => cases node <;> rfl

/-- The file is still there on a disk where neither directories nor this entry were touched. -/
theorem Holds.of_keeps {d' : Disk} (h : d.Holds path names serial content) (hkeeps : Keeps d d')
    (hnode : d'.node? names = d.node? names) : d'.Holds path names serial content where
  leads := resolve_of_keeps hkeeps h.leads h.not_directory rfl
  node := by rw [hnode, h.node]

/-- What is written at the end of the file is added to its content. -/
theorem Holds.appendTo (h : d.Holds path names serial content) (bytes : List UInt8) :
    (d.appendTo serial bytes).Holds path names serial (content ++ bytes) where
  leads := resolve_of_keeps (keeps_appendTo d serial bytes) h.leads h.not_directory rfl
  node := by
    rw [node?_appendTo, h.node]
    simp [Node.appendTo]

/-- Writing at the end of any file leaves a file where there was one. -/
theorem Holds.exists_appendTo (h : d.Holds path names serial content) (other : Nat)
    (bytes : List UInt8) : ∃ content', (d.appendTo other bytes).Holds path names serial content' := by
  have hleads := resolve_of_keeps (keeps_appendTo d other bytes) h.leads h.not_directory rfl
  by_cases hserial : serial = other
  · subst hserial
    exact ⟨content ++ bytes, h.appendTo bytes⟩
  · refine ⟨content, hleads, ?_⟩
    rw [node?_appendTo, h.node]
    simp [Node.appendTo, hserial]

theorem Holds.remove (h : d.Holds path names serial content) :
    d.remove path = .ok (d.delete names) := by
  simp [Disk.remove, h.leads, h.node, bind, Except.bind]

end Holds

theorem target_eq_ok {d : Disk} {path : Text} {names : List Text}
    {file? : Option (Nat × List UInt8)} (h : d.target path = .ok (names, file?)) :
    d.resolve path = .ok ⟨names, false⟩ ∧ d.node? names ≠ some .directory ∧
      (∀ serial content, d.node? names = some (.file serial content) ↔
        file? = some (serial, content)) := by
  rw [target] at h
  cases hresolve : d.resolve path with
  | error e =>
    rw [hresolve] at h
    cases h
  | ok location =>
    obtain ⟨found, asDirectory⟩ := location
    simp only [hresolve, bind, Except.bind] at h
    cases asDirectory with
    | true => split at h <;> cases h
    | false =>
      split at h
      · cases h
      all_goals
        rename_i hnode
        cases h
        refine ⟨rfl, by simp [hnode], ?_⟩
        intro serial content
        simp [hnode]

theorem Holds.target {d : Disk} {path : Text} {names : List Text} {serial : Nat}
    {content : List UInt8} (h : d.Holds path names serial content) :
    d.target path = .ok (names, some (serial, content)) := by
  simp [Disk.target, h.leads, h.node, bind, Except.bind]

theorem target_of_none {d : Disk} {path : Text} {names : List Text}
    (hleads : d.resolve path = .ok ⟨names, false⟩) (hnode : d.node? names = none) :
    d.target path = .ok (names, none) := by
  simp [target, hleads, hnode, bind, Except.bind]

/-- A file that is put where a path leads is there afterwards, and no other entry has changed.  The
number of the next file has no part in where paths lead. -/
theorem holds_put {d : Disk} {path : Text} {names : List Text}
    (hleads : d.resolve path = .ok ⟨names, false⟩) (hnode : d.node? names ≠ some .directory)
    (serial next : Nat) (bytes : List UInt8) {d' : Disk}
    (hd' : d' = { d.put names (.file serial bytes) with nextSerial := next }) :
    d'.Holds path names serial bytes ∧ Keeps d d' ∧
      ∀ other, other ≠ names → d'.node? other = d.node? other := by
  subst hd'
  have hkeeps : Keeps d { d.put names (.file serial bytes) with nextSerial := next } :=
    keeps_put hnode _
  refine ⟨⟨resolve_of_keeps hkeeps hleads hnode rfl, node?_put_self hnode _⟩, hkeeps, ?_⟩
  intro other hother
  exact node?_put_of_ne hother d _

/-- A file that is opened for writing at its end is there afterwards.  If it was there before it is
as it was. -/
theorem openAppend_eq_ok {d d' : Disk} {path : Text} {serial : Nat}
    (h : d.openAppend path = .ok (serial, d')) :
    ∃ names content, d'.Holds path names serial content ∧
      ∀ serial' content', d.get path = .ok (.file serial' content') → content' = content := by
  rw [openAppend] at h
  cases htarget : d.target path with
  | error e =>
    rw [htarget] at h
    cases h
  | ok found =>
    obtain ⟨names, file?⟩ := found
    obtain ⟨hleads, hnode, hfile⟩ := target_eq_ok htarget
    rw [htarget] at h
    cases file? with
    | some file =>
      obtain ⟨serial', content⟩ := file
      cases h
      have hholds : d.Holds path names serial content := ⟨hleads, (hfile serial content).mpr rfl⟩
      refine ⟨names, content, hholds, ?_⟩
      intro serial' content' hget
      rw [hholds.get] at hget
      cases hget
      rfl
    | none =>
      -- a new file, where there was nothing or a pipe
      cases h
      obtain ⟨hholds, -, -⟩ := holds_put hleads hnode d.nextSerial (d.nextSerial + 1) [] rfl
      refine ⟨names, [], hholds, ?_⟩
      intro serial' content' hget
      simp only [Disk.get, hleads, bind, Except.bind] at hget
      split at hget
      · cases hget
      · cases hget
      · rename_i hnode'
        cases hget
        cases (hfile serial' content').mp hnode'

/-- A file that is written is there afterwards, and no other entry has changed. -/
theorem write_eq_ok {d d' : Disk} {path : Text} {bytes : List UInt8}
    (h : d.write path bytes = .ok d') :
    ∃ names serial, d.resolve path = .ok ⟨names, false⟩ ∧ d'.Holds path names serial bytes ∧
      Keeps d d' ∧ ∀ other, other ≠ names → d'.node? other = d.node? other := by
  rw [write] at h
  cases htarget : d.target path with
  | error e =>
    rw [htarget] at h
    cases h
  | ok found =>
    obtain ⟨names, file?⟩ := found
    obtain ⟨hleads, hnode, -⟩ := target_eq_ok htarget
    rw [htarget] at h
    cases file? with
    | some file =>
      cases h
      exact ⟨names, file.1, hleads, holds_put hleads hnode file.1 d.nextSerial bytes rfl⟩
    | none =>
      cases h
      exact ⟨names, d.nextSerial, hleads,
        holds_put hleads hnode d.nextSerial (d.nextSerial + 1) bytes rfl⟩

end BuildStep.Disk
