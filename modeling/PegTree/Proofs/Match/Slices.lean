import PegTree.Proofs.Match.Invariant
import PegTree.Text.Location

/-!
# Matching by byte offsets

A cursor never stands inside a character.  A program that holds its text as bytes has no cursors: it adds
the widths of what it has matched to an offset, and wherever it wants to read on it cuts the text there,
which comes to grief past the end and inside a character.  `Expr.look` matches in this way.  Each of its
looks at the text is a cut that may fail, and is recorded.

Nothing comes to grief where a compiled grammar is run: what comes of it is the outcome that cursors lead
to, and all looks are at boundaries of characters (`Grammar.look_finds`).  Everything that is asked of a
place is that it is one of the text; each step adds the width of what stands there, so it leads from one
such place to another.
-/

namespace PegTree

/-! ## Cutting a text -/

/-- An offset at which a text can be cut: neither past the end nor inside a character. -/
def CutsAt (text : List Char) (offset : Nat) : Prop :=
  utf8Width (takeBytes offset text) = offset

instance (text : List Char) (offset : Nat) : Decidable (CutsAt text offset) :=
  inferInstanceAs (Decidable (_ = _))

/-- What is left of a text from an offset on. -/
def sliceFrom? (text : List Char) (offset : Nat) : Option (List Char) :=
  if CutsAt text offset then some (dropBytes offset text) else none

/-- What a text has between two offsets. -/
def slice? (text : List Char) (start stop : Nat) : Option (List Char) :=
  if start ≤ stop ∧ CutsAt text start ∧ CutsAt text stop then
    some ((⟨start, stop⟩ : Span).select text)
  else none

theorem Cursor.On.cutsAt {text : List Char} {c : Cursor} (h : c.On text) : CutsAt text c.offset := by
  obtain ⟨before, htext, hoffset⟩ := h.exists_split
  rw [CutsAt, htext, hoffset, takeBytes_utf8Width_append]

/-- A text can be cut where no character is. -/
theorem cutsAt_iff_boundary {text : List Char} {offset : Nat} : CutsAt text offset ↔ Boundary text offset := by
  constructor
  · intro h
    have hsplit : text = takeBytes offset text ++ dropBytes offset text :=
      (takeBytes_append_dropBytes offset text).symm
    refine ⟨⟨offset, dropBytes offset text⟩, ⟨takeBytes offset text, hsplit, ?_⟩, rfl⟩
    rw [h]
    exact (Nat.zero_add _).symm
  · rintro ⟨c, hc, rfl⟩
    exact hc.cutsAt

/-! ## Looking at a text -/

/-- A computation that looks at a text.  It records the offsets at which it does, the last one in front, and
has no result if a cut fails. -/
abbrev Looking :=
  StateT (List Nat) Option

namespace Looking

/-- Looks at what is ahead of an offset. -/
def ahead (text : List Char) (offset : Nat) : Looking (List Char) := do
  modify (offset :: ·)
  StateT.lift (sliceFrom? text offset)

/-- Looks at what stands between two offsets. -/
def between (text : List Char) (start stop : Nat) : Looking (List Char) := do
  modify ([start, stop] ++ ·)
  StateT.lift (slice? text start stop)

/-- Looks up the line and the column of an offset. -/
def locate (text : List Char) (offset : Nat) : Looking Location := do
  modify (offset :: ·)
  StateT.lift (Location.locate? text offset)

variable {α β : Type} {text : List Char}

/-- The computation has a result, and looks at boundaries of characters only. -/
def Sees (text : List Char) (x : Looking α) (a : α) : Prop :=
  ∀ looked, ∃ more, x.run looked = some (a, more ++ looked) ∧ ∀ offset ∈ more, Boundary text offset

theorem sees_pure (text : List Char) (a : α) : Sees text (pure a) a :=
  fun _ => ⟨[], rfl, by simp⟩

theorem Sees.bind {x : Looking α} {f : α → Looking β} {a : α} {b : β} (hx : Sees text x a)
    (hf : Sees text (f a) b) : Sees text (x >>= f) b := by
  intro looked
  obtain ⟨first, hfirst, hbefore⟩ := hx looked
  obtain ⟨second, hsecond, hbehind⟩ := hf (first ++ looked)
  refine ⟨second ++ first, ?_, ?_⟩
  · rw [StateT.run_bind, hfirst, List.append_assoc]
    exact hsecond
  · intro offset hoffset
    exact (List.mem_append.mp hoffset).elim (hbehind offset) (hbefore offset)

theorem Sees.map {x : Looking α} {a : α} (hx : Sees text x a) (f : α → β) :
    Sees text (do return f (← x)) (f a) :=
  hx.bind (sees_pure text (f a))

/-- A look that succeeds, recorded. -/
theorem sees_recorded {cut : Option α} {a : α} (offsets : List Nat) (hcut : cut = some a)
    (hoffsets : ∀ offset ∈ offsets, Boundary text offset) :
    Sees text (do modify (offsets ++ ·); StateT.lift cut) a := by
  intro looked
  subst hcut
  exact ⟨offsets, rfl, hoffsets⟩

theorem sees_ahead {c : Cursor} (hc : c.On text) : Sees text (ahead text c.offset) c.rest := by
  have hcut : sliceFrom? text c.offset = some c.rest := by
    rw [sliceFrom?, if_pos hc.cutsAt, hc.dropBytes_offset]
  exact sees_recorded [c.offset] hcut (by simpa using hc.boundary)

theorem sees_between {c stop : Cursor} (hc : c.On text) (hstop : c.Reaches stop) :
    Sees text (between text c.offset stop.offset) (c.textTo stop) := by
  have hcut : slice? text c.offset stop.offset = some (c.textTo stop) := by
    rw [slice?, if_pos ⟨hstop.offset_le, hc.cutsAt, (hc.trans hstop).cutsAt⟩, Span.select,
      hc.dropBytes_offset]
    rfl
  exact sees_recorded [c.offset, stop.offset] hcut (by simpa using ⟨hc.boundary, (hc.trans hstop).boundary⟩)

end Looking

/-! ## Endings -/

/-- What comes of running an expression at an offset: an outcome that stops at an offset. -/
inductive Ending where
  | overflow (o : Overflow)
  | failed (log : List Miss)
  | matched (stop : Nat) (captures : List Tree) (log : List Miss)

/-- What is left of an outcome without cursors. -/
def Outcome.ending : Outcome → Ending
  | overflow o => .overflow o
  | failed log => .failed log
  | matched stop captures log => .matched stop.offset captures log

namespace Ending

/-- A match of nothing. -/
def stay (offset : Nat) : Ending :=
  matched offset [] []

/-- The ending, with what was captured and missed before it. -/
def after (before : List Tree) (missed : List Miss) : Ending → Ending
  | overflow o => overflow o
  | failed log => failed (missed ++ log)
  | matched stop captures log => matched stop (before ++ captures) (missed ++ log)

/-- Matches nothing at an offset after a failure and fails after a match; no miss counts. -/
def negated (offset : Nat) : Ending → Ending
  | overflow o => overflow o
  | failed _ => stay offset
  | matched _ _ _ => failed []

/-- Forgets the misses. -/
def quiet : Ending → Ending
  | overflow o => overflow o
  | failed _ => failed []
  | matched stop captures _ => matched stop captures []

/-- Goes on from where a match stops. -/
def andThen (next : Nat → Looking Ending) : Ending → Looking Ending
  | matched stop captures log => do return (← next stop).after captures log
  | e => return e

/-- Tries something else after a failure. -/
def orElse (other : Looking Ending) : Ending → Looking Ending
  | failed log => do return (← other).after [] log
  | e => return e

/-- What a round of a repetition comes to, given how to go on behind a round that has consumed something. -/
def round (offset : Nat) (next : Nat → Looking Ending) : Ending → Looking Ending
  | overflow o => return overflow o
  | failed log => return matched offset [] log
  | matched stop captures log => do
    if offset < stop then return (← next stop).after captures log else return matched offset [] log

end Ending

/-- The node for a match between two offsets; only that of a leaf needs the text. -/
def lookNode (text : List Char) (rule : RuleId) (start stop : Nat) (captures : List Tree) : Looking Tree := do
  if captures.isEmpty then
    return .leaf rule ⟨start, stop⟩ (String.ofList (← Looking.between text start stop))
  else return .branch rule ⟨start, stop⟩ captures

/-- Makes the match of a rule that began at an offset a node. -/
def Ending.captured (text : List Char) (rule : RuleId) (start : Nat) : Ending → Looking Ending
  | matched stop captures log => do return matched stop [← lookNode text rule start stop captures] log
  | e => return e

/-! ## Frames -/

/-- What an expression needs to know of its surroundings. -/
structure LookFrame where
  /-- The rule that is being matched. -/
  rule : Option RuleId
  /-- Runs the skip rule. -/
  skip : Nat → Looking Ending
  /-- Calls a rule. -/
  call : RuleId → Nat → Looking Ending

namespace LookFrame

variable (f : LookFrame) (text : List Char)

/-- Runs the skip rule first if that is asked for. -/
def leading (lead : Bool) (offset : Nat) (next : Nat → Looking Ending) : Looking Ending := do
  if lead then (← f.skip offset).andThen next else next offset

/-- A failed terminal. -/
def fail (offset : Nat) (e : Expectation) : Ending :=
  .failed [⟨offset, e.describe, f.rule⟩]

/-- A text. -/
def literal (s : String) (offset : Nat) : Looking Ending := do
  if s.toList.isPrefixOf (← Looking.ahead text offset) then return .stay (offset + utf8Width s.toList)
  else return f.fail offset (.literal s)

/-- A character between bounds. -/
def range (low high : Char) (offset : Nat) : Looking Ending := do
  match ← Looking.ahead text offset with
  | x :: _ =>
    if low ≤ x ∧ x ≤ high then return .stay (offset + x.utf8Size) else return f.fail offset (.range low high)
  | [] => return f.fail offset (.range low high)

/-- The end of the input. -/
def endOfInput (offset : Nat) : Looking Ending :=
  if offset = utf8Width text then return .stay offset else return f.fail offset .endOfInput

end LookFrame

/-! ## Expressions -/

/-- Repeats `body`.  The characters that are given only bound the number of rounds. -/
def lookRepeat (body : Bool → Nat → Looking Ending) : List Char → Bool → Nat → Looking Ending
  | [], lead, offset => do (← body lead offset).round offset fun stop => return .stay stop
  | _ :: ahead, lead, offset => do (← body lead offset).round offset (lookRepeat body ahead true)

mutual

/-- Runs an expression at an offset. -/
def Expr.look (text : List Char) (f : LookFrame) : Expr → Bool → Nat → Looking Ending
  | .empty, lead, offset => f.leading lead offset fun offset => return .stay offset
  | .literal s, lead, offset => f.leading lead offset (f.literal text s)
  | .range low high, lead, offset => f.leading lead offset (f.range text low high)
  | .endOfInput, lead, offset => f.leading lead offset (f.endOfInput text)
  | .rule id, lead, offset => f.leading lead offset (f.call id)
  | .capture id, lead, offset =>
    f.leading lead offset fun offset => do (← f.call id offset).captured text id offset
  | .sequence terms, lead, offset => lookSequence text f terms lead offset
  | .choice alternatives, lead, offset => lookChoice text f alternatives lead offset
  | .repetition body, lead, offset => lookRepeat (body.look text f) (dropBytes offset text) lead offset
  | .optional body, lead, offset => do
    (← body.look text f lead offset).orElse (return .stay offset)
  | .negation body, _, offset => do return (← body.look text f false offset).negated offset

/-- Runs elements one after the other. -/
def lookSequence (text : List Char) (f : LookFrame) : List Term → Bool → Nat → Looking Ending
  | [], _, offset => return .stay offset
  | ⟨adjacent, e⟩ :: terms, lead, offset => do
    (← e.look text f (lead && !adjacent) offset).andThen (lookSequence text f terms true)

/-- Tries alternatives at one offset. -/
def lookChoice (text : List Char) (f : LookFrame) : List Expr → Bool → Nat → Looking Ending
  | [], _, _ => return .failed []
  | e :: alternatives, lead, offset => do
    (← e.look text f lead offset).orElse (lookChoice text f alternatives lead offset)

end

/-! ## Rules -/

namespace Grammar

/-- Runs the skip rule at an offset, given how rules are called. -/
def lookSkip (g : Grammar) (text : List Char) (call : Mode → RuleId → Nat → Looking Ending) (mode : Mode)
    (offset : Nat) : Looking Ending := do
  match mode, g.skip with
  | .plain, some body =>
    let f : LookFrame := ⟨none, fun offset => return .stay offset, call .skipping⟩
    return (← (← body.look text f false offset).orElse (return .stay offset)).quiet
  | _, _ => return .stay offset

/-- Calls a rule while so many nested calls are left.  There is nothing to call where there is no rule. -/
def look (g : Grammar) (text : List Char) : Nat → Mode → RuleId → Nat → Looking Ending
  | 0, _, id, offset => return .overflow ⟨offset, id⟩
  | left + 1, mode, id, offset =>
    match g.rules[id]? with
    | none => failure
    | some r =>
      let f : LookFrame := ⟨some id, g.lookSkip text (g.look text left) mode, g.look text left mode⟩
      r.body.look text f false offset

end Grammar

/-! ## What is found -/

/-- Looking at a text comes to what cursors lead to from a place, at boundaries of characters only, and stops
no further back. -/
structure Finds (text : List Char) (c : Cursor) (x : Looking Ending) (o : Outcome) : Prop where
  sees : Looking.Sees text x o.ending
  reaches : ∀ stop captures log, o = .matched stop captures log → c.Reaches stop

namespace Finds

open Looking

variable {text : List Char} {c : Cursor} {x y : Looking Ending} {o other : Outcome}
  {next : Nat → Looking Ending} {next' : Cursor → Outcome}

theorem pure_overflow (v : Overflow) : Finds text c (pure (.overflow v)) (.overflow v) :=
  ⟨sees_pure text _, fun _ _ _ h => nomatch h⟩

theorem pure_failed (log : List Miss) : Finds text c (pure (.failed log)) (.failed log) :=
  ⟨sees_pure text _, fun _ _ _ h => nomatch h⟩

theorem of_matched {stop : Cursor} {captures : List Tree} {log : List Miss}
    (hx : Sees text x (.matched stop.offset captures log)) (h : c.Reaches stop) :
    Finds text c x (.matched stop captures log) := by
  refine ⟨hx, ?_⟩
  rintro _ _ _ ⟨⟩
  exact h

theorem pure_matched {stop : Cursor} (h : c.Reaches stop) (captures : List Tree) (log : List Miss) :
    Finds text c (pure (.matched stop.offset captures log)) (.matched stop captures log) :=
  of_matched (sees_pure text _) h

theorem pure_stay {stop : Cursor} (h : c.Reaches stop) :
    Finds text c (pure (.stay stop.offset)) (.stay stop) :=
  pure_matched h [] []

/-- Goes on with what has been found. -/
theorem bind (h : Finds text c x o) {f : Ending → Looking Ending} (hf : Finds text c (f o.ending) other) :
    Finds text c (x >>= f) other :=
  ⟨h.sees.bind hf.sees, hf.reaches⟩

/-- What is found from a place further on is found from here. -/
theorem of_reaches {d : Cursor} (h : Finds text d x o) (hd : c.Reaches d) : Finds text c x o :=
  ⟨h.sees, fun stop captures log ho => hd.trans (h.reaches stop captures log ho)⟩

theorem after (h : Finds text c x o) (captures : List Tree) (log : List Miss) :
    Finds text c (do return (← x).after captures log) (o.after captures log) := by
  refine h.bind ?_
  cases o with
  | overflow v => exact pure_overflow v
  | failed missed => exact pure_failed _
  | matched stop captures' missed => exact pure_matched (h.reaches _ _ _ rfl) _ _

theorem andThen (h : Finds text c x o)
    (hnext : ∀ stop, c.Reaches stop → Finds text stop (next stop.offset) (next' stop)) :
    Finds text c (do (← x).andThen next) (o.andThen next') := by
  refine h.bind ?_
  cases o with
  | overflow v => exact pure_overflow v
  | failed log => exact pure_failed log
  | matched stop captures log =>
    have hstop := h.reaches _ _ _ rfl
    exact ((hnext stop hstop).after captures log).of_reaches hstop

theorem orElse (h : Finds text c x o) (hother : Finds text c y other) :
    Finds text c (do (← x).orElse y) (o.orElse other) := by
  refine h.bind ?_
  cases o with
  | overflow v => exact pure_overflow v
  | failed log => exact hother.after [] log
  | matched stop captures log => exact pure_matched (h.reaches _ _ _ rfl) captures log

theorem negated (h : Finds text c x o) :
    Finds text c (do return (← x).negated c.offset) (o.negated c) := by
  refine h.bind ?_
  cases o with
  | overflow v => exact pure_overflow v
  | failed log => exact pure_stay (.refl c)
  | matched stop captures log => exact pure_failed []

theorem quiet (h : Finds text c x o) : Finds text c (do return (← x).quiet) o.quiet := by
  refine h.bind ?_
  cases o with
  | overflow v => exact pure_overflow v
  | failed log => exact pure_failed []
  | matched stop captures log => exact pure_matched (h.reaches _ _ _ rfl) captures []

theorem round (h : Finds text c x o)
    (hnext : ∀ stop, c.Reaches stop → Finds text stop (next stop.offset) (next' stop)) :
    Finds text c (do (← x).round c.offset next) (o.round c next') := by
  refine h.bind ?_
  cases o with
  | overflow v => exact pure_overflow v
  | failed log => exact pure_matched (.refl c) [] log
  | matched stop captures log =>
    have hstop := h.reaches _ _ _ rfl
    simp only [Outcome.ending, Ending.round, Outcome.round]
    split
    · exact ((hnext stop hstop).after captures log).of_reaches hstop
    · exact pure_matched (.refl c) [] log

theorem lookRepeat {body : Bool → Nat → Looking Ending} {body' : Bool → Cursor → Outcome}
    (hbody : ∀ lead c, c.On text → Finds text c (body lead c.offset) (body' lead c)) (ahead : List Char)
    (lead : Bool) (hc : c.On text) :
    Finds text c (PegTree.lookRepeat body ahead lead c.offset) (Outcome.iterate body' ahead lead c) := by
  induction ahead generalizing lead c with
  | nil => exact (hbody lead c hc).round fun stop _ => pure_stay (.refl stop)
  | cons a ahead ih => exact (hbody lead c hc).round fun stop hstop => ih true (hc.trans hstop)

end Finds

/-- The node of a match between two places, seen from their offsets. -/
theorem sees_lookNode {text : List Char} {c stop : Cursor} (hc : c.On text) (hstop : c.Reaches stop)
    (rule : RuleId) (captures : List Tree) :
    Looking.Sees text (lookNode text rule c.offset stop.offset captures)
      (Tree.ofMatch rule c stop captures) := by
  cases captures with
  | nil => exact (Looking.sees_between hc hstop).map fun cs => Tree.leaf rule (c.spanTo stop) (String.ofList cs)
  | cons t ts => exact Looking.sees_pure text _

theorem Finds.captured {text : List Char} {c : Cursor} {x : Looking Ending} {o : Outcome}
    (h : Finds text c x o) (hc : c.On text) (rule : RuleId) :
    Finds text c (do (← x).captured text rule c.offset) (o.captured rule c) := by
  refine h.bind ?_
  cases o with
  | overflow v => exact pure_overflow v
  | failed log => exact pure_failed log
  | matched stop captures log =>
    have hstop := h.reaches _ _ _ rfl
    have hnode := sees_lookNode hc hstop rule captures
    exact of_matched (hnode.map fun t => Ending.matched stop.offset [t] log) hstop

/-- A frame by offsets that finds what a frame by cursors leads to, for the rules that may be called. -/
structure LookFrame.FindsFor (l : LookFrame) (text : List Char) (f : Frame) (called : RuleId → Prop) :
    Prop where
  rule : l.rule = f.rule
  skip : ∀ c, c.On text → Finds text c (l.skip c.offset) (f.skip c)
  call : ∀ id c, called id → c.On text → Finds text c (l.call id c.offset) (f.call id c)

namespace LookFrame.FindsFor

open Looking

variable {l : LookFrame} {text : List Char} {f : Frame} {called : RuleId → Prop} {c : Cursor}

theorem leading (hl : l.FindsFor text f called) {next : Nat → Looking Ending} {next' : Cursor → Outcome}
    (hnext : ∀ c, c.On text → Finds text c (next c.offset) (next' c)) (lead : Bool) (hc : c.On text) :
    Finds text c (l.leading lead c.offset next) (f.leading lead c next') := by
  cases lead with
  | false => exact hnext c hc
  | true => exact (hl.skip c hc).andThen fun stop hstop => hnext stop (hc.trans hstop)

theorem fail (hl : l.FindsFor text f called) (c : Cursor) (e : Expectation) :
    Finds text c (pure (l.fail c.offset e)) (f.fail c e) := by
  rw [LookFrame.fail, hl.rule]
  exact .pure_failed _

/-- A look ahead decides between two endings. -/
theorem of_ahead (hc : c.On text) {next : List Char → Looking Ending} {o : Outcome}
    (h : Finds text c (next c.rest) o) : Finds text c (do next (← ahead text c.offset)) o :=
  ⟨(sees_ahead hc).bind h.sees, h.reaches⟩

theorem literal (hl : l.FindsFor text f called) (s : String) (hc : c.On text) :
    Finds text c (l.literal text s c.offset) (f.literal s c) := by
  refine of_ahead hc ?_
  rw [Frame.literal]
  cases hdrop : c.dropPrefix? s.toList with
  | none =>
    have hno : ¬ s.toList.isPrefixOf c.rest = true := by
      intro h
      rw [Cursor.dropPrefix?, if_pos h] at hdrop
      cases hdrop
    rw [if_neg hno]
    exact hl.fail c _
  | some stop =>
    have hreads := Cursor.dropPrefix?_eq_some.mp hdrop
    have hyes : s.toList.isPrefixOf c.rest = true :=
      List.isPrefixOf_iff_prefix.mpr ⟨stop.rest, hreads.1.symm⟩
    rw [if_pos hyes, ← hreads.2]
    exact .pure_stay ⟨_, hreads⟩

theorem range (hl : l.FindsFor text f called) (low high : Char) (hc : c.On text) :
    Finds text c (l.range text low high c.offset) (f.range low high c) := by
  refine of_ahead hc ?_
  rw [Frame.range, Cursor.next?]
  cases hrest : c.rest with
  | nil => exact hl.fail c _
  | cons x rest =>
    simp only
    split
    · have hreads : c.Reads [x] ⟨c.offset + x.utf8Size, rest⟩ := by
        rw [← Cursor.next?_eq_some, Cursor.next?, hrest]
      exact .pure_stay ⟨_, hreads⟩
    · exact hl.fail c _

theorem endOfInput (hl : l.FindsFor text f called) (hc : c.On text) :
    Finds text c (l.endOfInput text c.offset) (f.endOfInput c) := by
  rw [LookFrame.endOfInput, Frame.endOfInput]
  simp only [hc.offset_eq_iff, List.isEmpty_iff]
  split
  · exact .pure_stay (.refl c)
  · exact hl.fail c _

end LookFrame.FindsFor

section

variable {l : LookFrame} {text : List Char} {f : Frame} {called : RuleId → Prop}

mutual

/-- An expression at an offset finds what it leads to at the place. -/
theorem Expr.look_finds (hl : l.FindsFor text f called) :
    ∀ (e : Expr), (∀ x ∈ e.mentions, called x.rule) → ∀ (lead : Bool) {c : Cursor}, c.On text →
      Finds text c (e.look text l lead c.offset) (e.outcome f lead c)
  | .empty, _, lead, _, hc => hl.leading (fun c _ => .pure_stay (.refl c)) lead hc
  | .literal s, _, lead, _, hc => hl.leading (fun _ => hl.literal s) lead hc
  | .range low high, _, lead, _, hc => hl.leading (fun _ => hl.range low high) lead hc
  | .endOfInput, _, lead, _, hc => hl.leading (fun _ => hl.endOfInput) lead hc
  | .rule id, he, lead, _, hc => by
    have hid : called id := he ⟨id, false⟩ (by simp [Expr.mentions])
    exact hl.leading (fun c => hl.call id c hid) lead hc
  | .capture id, he, lead, _, hc => by
    have hid : called id := he ⟨id, true⟩ (by simp [Expr.mentions])
    exact hl.leading (fun c hc => (hl.call id c hid hc).captured hc id) lead hc
  | .sequence terms, he, lead, _, hc => lookSequence_finds hl terms he lead hc
  | .choice alternatives, he, lead, _, hc => lookChoice_finds hl alternatives he lead hc
  | .repetition body, he, lead, c, hc => by
    rw [Expr.look, Expr.outcome, hc.dropBytes_offset]
    exact .lookRepeat (fun lead _ => Expr.look_finds hl body he lead) c.rest lead hc
  | .optional body, he, lead, c, hc =>
    (Expr.look_finds hl body he lead hc).orElse (.pure_stay (.refl c))
  | .negation body, he, _, _, hc => (Expr.look_finds hl body he false hc).negated

theorem lookSequence_finds (hl : l.FindsFor text f called) :
    ∀ (terms : List Term), (∀ x ∈ mentionsOfTerms terms, called x.rule) →
      ∀ (lead : Bool) {c : Cursor}, c.On text →
      Finds text c (lookSequence text l terms lead c.offset) (sequenceOutcome f terms lead c)
  | [], _, _, c, _ => .pure_stay (.refl c)
  | ⟨adjacent, e⟩ :: terms, he, lead, _, hc => by
    simp only [mentionsOfTerms, List.mem_append] at he
    have hfirst := Expr.look_finds hl e (fun x hx => he x (.inl hx)) (lead && !adjacent) hc
    exact hfirst.andThen fun _ hstop =>
      lookSequence_finds hl terms (fun x hx => he x (.inr hx)) true (hc.trans hstop)

theorem lookChoice_finds (hl : l.FindsFor text f called) :
    ∀ (alternatives : List Expr), (∀ x ∈ mentionsOfAll alternatives, called x.rule) →
      ∀ (lead : Bool) {c : Cursor}, c.On text →
      Finds text c (lookChoice text l alternatives lead c.offset) (choiceOutcome f alternatives lead c)
  | [], _, _, _, _ => .pure_failed []
  | e :: alternatives, he, lead, _, hc => by
    simp only [mentionsOfAll, List.mem_append] at he
    have hfirst := Expr.look_finds hl e (fun x hx => he x (.inl hx)) lead hc
    exact hfirst.orElse (lookChoice_finds hl alternatives (fun x hx => he x (.inr hx)) lead hc)

end

end

/-! ## Compiled grammars -/

namespace Grammar

variable {g : Grammar} {text : List Char} {call : Mode → RuleId → Nat → Looking Ending}
  {call' : Mode → RuleId → Cursor → Outcome}

/-- Where calls find what they lead to, so does the skip rule. -/
theorem lookSkip_finds (hg : g.Resolved)
    (hcall : ∀ mode id c, id < g.size → c.On text → Finds text c (call mode id c.offset) (call' mode id c))
    (mode : Mode) {c : Cursor} (hc : c.On text) :
    Finds text c (g.lookSkip text call mode c.offset) (g.skipOutcome call' mode c) := by
  cases mode with
  | skipping => exact .pure_stay (.refl c)
  | plain =>
    cases hskip : g.skip with
    | none =>
      simp only [lookSkip, skipOutcome, hskip]
      exact .pure_stay (.refl c)
    | some body =>
      have hframe : LookFrame.FindsFor ⟨none, fun offset => return .stay offset, call .skipping⟩ text
          ⟨none, .stay, call' .skipping⟩ (· < g.size) :=
        ⟨rfl, fun c _ => .pure_stay (.refl c), hcall .skipping⟩
      have hbody := Expr.look_finds hframe body (hg body (skip_mem_bodies hskip)) false hc
      simpa only [lookSkip, skipOutcome, hskip, bind_assoc] using
        (hbody.orElse (.pure_stay (.refl c))).quiet

/-- Calling a rule at an offset finds what calling it at the place leads to. -/
theorem look_finds (hg : g.Resolved) (text : List Char) (left : Nat) (mode : Mode) {id : RuleId}
    (hid : id < g.size) {c : Cursor} (hc : c.On text) :
    Finds text c (g.look text left mode id c.offset) (g.outcome left mode id c) := by
  induction left generalizing mode id c with
  | zero => exact .pure_overflow _
  | succ left ih =>
    obtain ⟨r, hr⟩ := g.exists_rule hid
    rw [look, outcome, hr]
    have hframe : LookFrame.FindsFor
        ⟨some id, g.lookSkip text (g.look text left) mode, g.look text left mode⟩ text
        (g.frame (g.outcome left) mode (some id)) (· < g.size) :=
      ⟨rfl, fun c => lookSkip_finds hg (fun mode id c hid => ih mode hid) mode, fun id c hid => ih mode hid⟩
    exact Expr.look_finds hframe r.body (hg r.body (body_mem_bodies hr)) false hc

end Grammar

end PegTree
