import BuildStep.Log.Memory
import Mathlib.Data.List.Infix

/-!
# What readers see of a log in memory

A log in memory counts the bytes that its readers may see.  The count is taken from the text as it
stands, and the text is only ever added to, so the bytes that are counted end between two characters
for as long as the log is there.  Who holds the log makes no difference to any of this.

## Key results

- `Text.prefixOfSize?_eq_some_iff`: the start of a text is found by its size if there is one
- `MemoryLog.Shows.perform`: what a call does to what readers see
- `SharedLog.Leads.shows`: what readers see stays until somebody flushes or finalizes the log
- `SharedLog.Leads.of_finalized`: nothing changes once the log is finalized
- `SharedLog.leads_from_new`: the whole life of a log that several holders write to
-/

namespace BuildStep

/-! ## The size of a text -/

namespace Utf8

theorem size_eq_zero_iff {t : Text} : size t = 0 ↔ t = [] := by
  cases t with
  | nil => simp [size]
  | cons c t =>
    have hpos := Char.utf8Size_pos c
    rw [size_cons]
    simp only [reduceCtorEq, iff_false]
    omega

end Utf8

namespace Text

theorem prefixOfSizeFrom?_eq_some_iff {seen t q : Text} {n : Nat} :
    prefixOfSizeFrom? seen n t = some q ↔
      ∃ p, q = seen.reverse ++ p ∧ p <+: t ∧ Utf8.size p = n := by
  fun_induction prefixOfSizeFrom? seen n t with
  | case1 seen t =>
    -- nothing but the empty text is written in no bytes
    constructor
    · rintro ⟨⟩
      exact ⟨[], (List.append_nil _).symm, List.nil_prefix, rfl⟩
    · rintro ⟨p, rfl, -, hsize⟩
      rw [Utf8.size_eq_zero_iff.mp hsize, List.append_nil]
  | case2 seen n =>
    constructor
    · rintro ⟨⟩
    · rintro ⟨p, -, hp, hsize⟩
      rw [List.prefix_nil.mp hp] at hsize
      cases hsize
  | case3 seen n c rest hle ih =>
    rw [ih]
    constructor
    · rintro ⟨p, rfl, hp, hsize⟩
      refine ⟨c :: p, by simp, (List.prefix_cons_inj c).mpr hp, ?_⟩
      rw [Utf8.size_cons]
      omega
    · rintro ⟨p, rfl, hp, hsize⟩
      rcases List.prefix_cons_iff.mp hp with rfl | ⟨p, rfl, htail⟩
      · cases hsize
      · rw [Utf8.size_cons] at hsize
        exact ⟨p, by simp, htail, by omega⟩
  | case4 seen n c rest hlt =>
    constructor
    · rintro ⟨⟩
    · rintro ⟨p, -, hp, hsize⟩
      rcases List.prefix_cons_iff.mp hp with rfl | ⟨p, rfl, -⟩
      · cases hsize
      · rw [Utf8.size_cons] at hsize
        omega

/-- The start of a text is found by its size, and only if there is one of this size. -/
theorem prefixOfSize?_eq_some_iff {t p : Text} {n : Nat} :
    prefixOfSize? n t = some p ↔ p <+: t ∧ Utf8.size p = n := by
  rw [prefixOfSize?, prefixOfSizeFrom?_eq_some_iff]
  simp

end Text

/-! ## Single calls -/

namespace MemoryLog

/-- Readers of flushed text see this beginning of the log, and all of it once it is finalized. -/
structure Shows (log : MemoryLog) (seen : Text) : Prop where
  beginning : seen <+: log.contents
  flushed : log.flushed = Utf8.size seen
  complete : log.live = false → seen = log.contents

variable {log : MemoryLog} {seen : Text}

theorem Shows.flushedContents?_eq (h : log.Shows seen) : log.flushedContents? = some seen :=
  Text.prefixOfSize?_eq_some_iff.mpr ⟨h.beginning, h.flushed.symm⟩

theorem shows_new : new.Shows [] :=
  ⟨List.prefix_refl _, rfl, fun _ => rfl⟩

/-- A log whose readers see all text. -/
theorem shows_of_flushedContents? (h : log.flushedContents? = some log.contents) :
    log.Shows log.contents where
  beginning := List.prefix_refl _
  flushed := (Text.prefixOfSize?_eq_some_iff.mp h).2.symm
  complete _ := rfl

theorem append_of_live (h : log.live = true) (t : Text) :
    log.append t = (.ok (), { log with contents := log.contents ++ t }) := by
  rw [append, if_pos h]

theorem append_of_not_live (h : log.live = false) (t : Text) :
    log.append t = (.error finalizedError, log) := by
  rw [append, h]
  rfl

theorem finalize_of_not_live (h : log.live = false) : log.finalize = log := by
  rw [finalize, h]
  rfl

/-- Text that is added is not shown. -/
theorem Shows.append (h : log.Shows seen) (t : Text) : (log.append t).2.Shows seen := by
  cases hlive : log.live with
  | true =>
    rw [append_of_live hlive]
    refine ⟨h.beginning.trans (List.prefix_append _ _), h.flushed, fun hnot => ?_⟩
    rw [hlive] at hnot
    cases hnot
  | false =>
    rw [append_of_not_live hlive]
    exact h

theorem shows_flush (log : MemoryLog) : log.flush.Shows log.contents :=
  ⟨List.prefix_refl _, rfl, fun _ => rfl⟩

theorem contents_finalize (log : MemoryLog) : log.finalize.contents = log.contents := by
  rw [finalize]
  split <;> rfl

/-- A finalized log was flushed when it was finalized, and shows all of its text since. -/
theorem Shows.finalize (h : log.Shows seen) : log.finalize.Shows log.contents := by
  cases hlive : log.live with
  | true =>
    rw [MemoryLog.finalize, if_pos hlive]
    exact ⟨List.prefix_refl _, rfl, fun _ => rfl⟩
  | false =>
    rw [finalize_of_not_live hlive, ← h.complete hlive]
    exact h

/-- A call adds to the text and to what readers see of it, and takes nothing away. -/
theorem Shows.perform (h : log.Shows seen) (c : LogCall) :
    log.contents <+: (c.perform log).2.contents ∧
      ∃ seen', (c.perform log).2.Shows seen' ∧ seen <+: seen' := by
  cases c with
  | append t =>
    refine ⟨?_, seen, h.append t, List.prefix_refl _⟩
    show log.contents <+: (log.append t).2.contents
    cases hlive : log.live with
    | true =>
      rw [append_of_live hlive]
      exact List.prefix_append _ _
    | false => rw [append_of_not_live hlive]
  | flush => exact ⟨List.prefix_refl _, log.contents, shows_flush log, h.beginning⟩
  | finalize =>
    refine ⟨?_, log.contents, h.finalize, h.beginning⟩
    show log.contents <+: log.finalize.contents
    rw [contents_finalize]

end MemoryLog

/-! ## Many holders -/

namespace SharedLog

/-- The text that a step would add. -/
def Step.text : Step → Text
  | .call c => c.text
  | .clone => []

/-- What one of the holders did, and the answer. -/
structure Deed where
  holder : Nat
  move : Step
  result : Except IoError Unit

namespace Deed

/-- The text that was added. -/
def text (d : Deed) : Text :=
  match d.result with
  | .ok _ => d.move.text
  | .error _ => []

/-- Somebody finalized the log. -/
def Finalized (deeds : List Deed) : Prop :=
  ∃ d ∈ deeds, d.move = .call .finalize

/-- The deed lets readers see all text: a flush does, and so does whatever finalizes the log first.
-/
def Reveals (earlier : List Deed) (d : Deed) : Prop :=
  d.move = .call .flush ∨ d.move = .call .finalize ∧ ¬Finalized earlier

/-- None of the later deeds lets readers see more: nobody flushes the log, and nobody finalizes it
unless it was finalized before. -/
def Quiet (earlier later : List Deed) : Prop :=
  (∀ d ∈ later, d.move ≠ .call .flush) ∧ (Finalized later → Finalized earlier)

end Deed

/-- Deeds, in order, that lead from one state of a shared log to another.  Whoever holds the log may
do the next one. -/
inductive Leads : SharedLog → List Deed → SharedLog → Prop
  | done (s : SharedLog) : Leads s [] s
  | deed {s s' : SharedLog} {rest : List Deed} (holder : Nat) (holds : holder < s.holders)
    (move : Step) (more : Leads (s.step move).2 rest s') :
    Leads s (⟨holder, move, (s.step move).1⟩ :: rest) s'

variable {s s' : SharedLog} {deeds : List Deed}

theorem leads_append_iff {first second : List Deed} :
    Leads s (first ++ second) s' ↔ ∃ middle, Leads s first middle ∧ Leads middle second s' := by
  induction first generalizing s with
  | nil =>
    constructor
    · exact fun h => ⟨s, .done s, h⟩
    · rintro ⟨middle, hfirst, hsecond⟩
      cases hfirst
      exact hsecond
  | cons d first ih =>
    constructor
    · intro h
      cases h with
      | deed holder holds move more =>
        obtain ⟨middle, hfirst, hsecond⟩ := ih.mp more
        exact ⟨middle, .deed holder holds move hfirst, hsecond⟩
    · rintro ⟨middle, hfirst, hsecond⟩
      cases hfirst with
      | deed holder holds move more =>
        exact .deed holder holds move (ih.mpr ⟨middle, more, hsecond⟩)

/-- Who clones the log leaves it as it is. -/
theorem step_clone (s : SharedLog) :
    s.step .clone = (.ok (), { s with holders := s.holders + 1 }) :=
  rfl

theorem step_append (s : SharedLog) (t : Text) :
    s.step (.call (.append t)) = ((s.log.append t).1, { s with log := (s.log.append t).2 }) :=
  rfl

theorem step_flush (s : SharedLog) :
    s.step (.call .flush) = (.ok (), { s with log := s.log.flush }) :=
  rfl

theorem step_finalize (s : SharedLog) :
    s.step (.call .finalize) = (.ok (), { s with log := s.log.finalize }) :=
  rfl

/-- What a step adds to the text is what it was to add, if it succeeds. -/
theorem contents_step (s : SharedLog) (holder : Nat) (move : Step) :
    (s.step move).2.log.contents = s.log.contents ++ Deed.text ⟨holder, move, (s.step move).1⟩ := by
  cases move with
  | clone => simp [step_clone, Deed.text, Step.text]
  | call c =>
    cases c with
    | flush => simp [step_flush, Deed.text, Step.text, LogCall.text, MemoryLog.flush]
    | finalize =>
      simp [step_finalize, Deed.text, Step.text, LogCall.text, MemoryLog.contents_finalize]
    | append t =>
      cases hlive : s.log.live with
      | true =>
        simp [step_append, MemoryLog.append_of_live hlive, Deed.text, Step.text, LogCall.text]
      | false => simp [step_append, MemoryLog.append_of_not_live hlive, Deed.text]

/-- Finalizing the log is the only step that ends its life, and no step brings it back. -/
theorem live_step (s : SharedLog) (move : Step) :
    (s.step move).2.log.live = true ↔ s.log.live = true ∧ move ≠ .call .finalize := by
  cases move with
  | clone => simp [step_clone]
  | call c =>
    cases c with
    | flush => simp [step_flush, MemoryLog.flush]
    | append t =>
      cases hlive : s.log.live with
      | true => simp [step_append, MemoryLog.append_of_live hlive, hlive]
      | false => simp [step_append, MemoryLog.append_of_not_live hlive, hlive]
    | finalize =>
      cases hlive : s.log.live with
      | true => simp [step_finalize, MemoryLog.finalize, hlive]
      | false => simp [step_finalize, MemoryLog.finalize_of_not_live hlive, hlive]

theorem Leads.contents_eq (h : Leads s deeds s') :
    s'.log.contents = s.log.contents ++ deeds.flatMap Deed.text := by
  induction h with
  | done s => exact (List.append_nil _).symm
  | deed holder holds move more ih =>
    rw [ih, contents_step _ holder, List.flatMap_cons, List.append_assoc]

theorem Leads.live_iff (h : Leads s deeds s') :
    s'.log.live = true ↔ s.log.live = true ∧ ¬Deed.Finalized deeds := by
  induction h with
  | done s => simp [Deed.Finalized]
  | deed holder holds move more ih =>
    rw [ih, live_step]
    simp only [Deed.Finalized, List.mem_cons, exists_eq_or_imp, not_or, and_assoc, ne_eq]

/-- Some beginning of the text can always be seen. -/
theorem Leads.exists_shows (h : Leads s deeds s') {seen : Text} (hseen : s.log.Shows seen) :
    ∃ seen', s'.log.Shows seen' := by
  induction h generalizing seen with
  | done s => exact ⟨seen, hseen⟩
  | deed holder holds move more ih =>
    cases move with
    | clone => exact ih hseen
    | call c =>
      obtain ⟨-, seen', hseen', -⟩ := hseen.perform c
      exact ih hseen'

/-- What can be seen stays the same until somebody flushes the log or finalizes it. -/
theorem Leads.shows (h : Leads s deeds s') {seen : Text} (hseen : s.log.Shows seen)
    (hflush : ∀ d ∈ deeds, d.move ≠ .call .flush)
    (hfinalize : Deed.Finalized deeds → s.log.live = false) : s'.log.Shows seen := by
  induction h with
  | done s => exact hseen
  | @deed s s' rest holder holds move more ih =>
    obtain ⟨hmove, hrest⟩ := List.forall_mem_cons.mp hflush
    have hlater : Deed.Finalized rest → (s.step move).2.log.live = false := by
      rintro ⟨d, hd, hmove⟩
      have hdead := hfinalize ⟨d, List.mem_cons_of_mem _ hd, hmove⟩
      rw [← Bool.not_eq_true, live_step, hdead]
      simp
    refine ih ?_ hrest hlater
    cases move with
    | clone => exact hseen
    | call c =>
      cases c with
      | append t => exact hseen.append t
      | flush => exact absurd rfl hmove
      | finalize =>
        have hdead := hfinalize ⟨_, List.mem_cons_self, rfl⟩
        show s.log.finalize.Shows seen
        rw [MemoryLog.finalize_of_not_live hdead]
        exact hseen

/-- Behind a deed that lets readers see all text they see what is there. -/
theorem Leads.shows_of_reveals {before : List Deed} {mark : Deed}
    (h : Leads new (before ++ [mark]) s) (hreveals : mark.Reveals before) :
    s.log.Shows s.log.contents := by
  obtain ⟨earlier, hbefore, hmark⟩ := leads_append_iff.mp h
  obtain ⟨seen, hseen⟩ := hbefore.exists_shows MemoryLog.shows_new
  cases hmark with
  | deed holder holds move more =>
    cases more
    rcases hreveals with hflush | ⟨hfinalize, -⟩
    · cases hflush
      exact MemoryLog.shows_flush earlier.log
    · cases hfinalize
      have hfinalized := hseen.finalize
      rw [← MemoryLog.contents_finalize] at hfinalized
      exact hfinalized

/-- Once a log is finalized nothing changes any more, and text is refused. -/
theorem Leads.of_finalized (h : Leads s deeds s') (hshows : s.log.Shows s.log.contents)
    (hdead : s.log.live = false) :
    s'.log = s.log ∧ ∀ d ∈ deeds, ∀ t, d.move = .call (.append t) →
      d.result = .error MemoryLog.finalizedError := by
  induction h with
  | done s => exact ⟨rfl, by simp⟩
  | @deed s s' rest holder holds move more ih =>
    have hsame : (s.step move).2.log = s.log := by
      cases move with
      | clone => rfl
      | call c =>
        cases c with
        | append t => rw [step_append, MemoryLog.append_of_not_live hdead]
        | flush =>
          -- the number of bytes that is set is the number that was there
          rw [step_flush, MemoryLog.flush, ← hshows.flushed]
        | finalize => rw [step_finalize, MemoryLog.finalize_of_not_live hdead]
    rw [hsame] at ih
    obtain ⟨hlog, hrefused⟩ := ih hshows hdead
    refine ⟨hlog, List.forall_mem_cons.mpr ⟨?_, hrefused⟩⟩
    rintro t rfl
    rw [step_append, MemoryLog.append_of_not_live hdead]

/-- After any deeds on a `SharedLog`, `contents` is what was appended with success, and
`flushedContents?` what it was at the last deed that `Reveals`.  From the first `finalize` on, text
is refused and nothing changes. -/
theorem leads_from_new (h : Leads new deeds s) :
    s.log.contents = deeds.flatMap Deed.text ∧
      (∃ seen, s.log.flushedContents? = some seen ∧ seen <+: s.log.contents) ∧
      ((∀ d ∈ deeds, d.move ≠ .call .flush ∧ d.move ≠ .call .finalize) →
        s.log.flushedContents? = some []) ∧
      (∀ before mark after, deeds = before ++ mark :: after → mark.Reveals before →
        Deed.Quiet (before ++ [mark]) after →
        ∃ revealed, Leads new (before ++ [mark]) revealed ∧
          s.log.flushedContents? = some revealed.log.contents) ∧
      (s.log.live = true ↔ ¬Deed.Finalized deeds) ∧
      (s.log.live = true → ∀ t, (s.step (.call (.append t))).1 = .ok ()) ∧
      (s.log.live = false → ∀ later s', Leads s later s' →
        s'.log.live = false ∧ s'.log.contents = s.log.contents ∧
          s'.log.flushedContents? = some s.log.contents ∧
          ∀ d ∈ later, ∀ t, d.move = .call (.append t) →
            ∃ e, d.result = .error e ∧ e.kind = .brokenPipe) := by
  obtain ⟨seen, hseen⟩ := h.exists_shows MemoryLog.shows_new
  refine ⟨h.contents_eq, ⟨seen, hseen.flushedContents?_eq, hseen.beginning⟩, ?_, ?_, ?_, ?_, ?_⟩
  · intro hnone
    refine (h.shows MemoryLog.shows_new (fun d hd => (hnone d hd).1) ?_).flushedContents?_eq
    rintro ⟨d, hd, hmove⟩
    exact absurd hmove (hnone d hd).2
  · rintro before mark after rfl hreveals ⟨hflush, hfinalize⟩
    rw [List.append_cons, leads_append_iff] at h
    obtain ⟨revealed, hmark, hafter⟩ := h
    have hshown : s.log.Shows revealed.log.contents := by
      refine hafter.shows (hmark.shows_of_reveals hreveals) hflush fun hlater => ?_
      rw [← Bool.not_eq_true, hmark.live_iff]
      exact fun hlive => hlive.2 (hfinalize hlater)
    exact ⟨revealed, hmark, hshown.flushedContents?_eq⟩
  · rw [h.live_iff]
    simp [new, MemoryLog.new]
  · intro hlive t
    rw [step_append, MemoryLog.append_of_live hlive]
  · intro hdead later s' hlater
    have hall : s.log.Shows s.log.contents := hseen.complete hdead ▸ hseen
    obtain ⟨hlog, hrefused⟩ := hlater.of_finalized hall hdead
    rw [hlog]
    refine ⟨hdead, rfl, hall.flushedContents?_eq, fun d hd t hmove => ?_⟩
    exact ⟨_, hrefused d hd t hmove, rfl⟩

/-- One holder flushes what the other has written, and then writes more than readers see. -/
theorem leads_from_new_of_two_holders :
    ∃ s, Leads new [⟨0, .call (.append ['é']), .ok ()⟩, ⟨0, .clone, .ok ()⟩,
        ⟨1, .call .flush, .ok ()⟩, ⟨1, .call (.append ['x']), .ok ()⟩] s ∧
      s.log.contents = ['é', 'x'] ∧ s.log.flushedContents? = some ['é'] ∧ s.log.live = true := by
  have steps : Leads new _ _ :=
    .deed 0 (by decide) (.call (.append ['é'])) <| .deed 0 (by decide) .clone <|
      .deed 1 (by decide) (.call .flush) <| .deed 1 (by decide) (.call (.append ['x'])) <| .done _
  obtain ⟨hcontents, -, -, hshown, hlive, -⟩ := leads_from_new steps
  obtain ⟨revealed, hrevealed, hflushed⟩ := hshown
    [⟨0, .call (.append ['é']), .ok ()⟩, ⟨0, .clone, .ok ()⟩] ⟨1, .call .flush, .ok ()⟩
    [⟨1, .call (.append ['x']), .ok ()⟩] rfl (.inl rfl) ⟨by simp, by simp [Deed.Finalized]⟩
  refine ⟨_, steps, hcontents, ?_, hlive.mpr (by simp [Deed.Finalized])⟩
  rw [hflushed, hrevealed.contents_eq]
  rfl

end SharedLog

end BuildStep
