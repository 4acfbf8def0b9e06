import PegTree.Proofs.Match.Transfer

/-!
# Matching does not look back

All that a run knows of its place is what is ahead of it; the offset is only counted on.  So the same
characters at an offset that is larger by `k` lead to the same outcome with every offset in it larger by
`k` (`Grammar.outcome_shift`): nothing depends on what stands to the left, not on an absolute position
either.
-/

namespace PegTree

/-! ## Moving offsets -/

/-- The range further on in a text. -/
def Span.shift (k : Nat) (s : Span) : Span :=
  ⟨s.start + k, s.stop + k⟩

mutual

/-- The tree with every range further on. -/
def Tree.shift (k : Nat) : Tree → Tree
  | .leaf rule span value => .leaf rule (span.shift k) value
  | .branch rule span children => .branch rule (span.shift k) (shiftAll k children)

/-- The trees with every range further on. -/
def shiftAll (k : Nat) : List Tree → List Tree
  | [] => []
  | t :: ts => t.shift k :: shiftAll k ts

end

theorem shiftAll_append (k : Nat) (ts us : List Tree) :
    shiftAll k (ts ++ us) = shiftAll k ts ++ shiftAll k us := by
  induction ts with
  | nil => rfl
  | cons t ts ih => simp [shiftAll, ih]

theorem Cursor.textTo_shift (k : Nat) (c stop : Cursor) :
    (c.shift k).textTo (stop.shift k) = c.textTo stop := by
  simp [Cursor.textTo, Nat.add_sub_add_right]

/-- The node of a match further on. -/
theorem Tree.ofMatch_shift (k : Nat) (rule : RuleId) (c stop : Cursor) (ts : List Tree) :
    Tree.ofMatch rule (c.shift k) (stop.shift k) (shiftAll k ts) =
      (Tree.ofMatch rule c stop ts).shift k := by
  cases ts with
  | nil => simp [Tree.ofMatch, shiftAll, Tree.shift, Cursor.textTo_shift, Cursor.spanTo, Span.shift]
  | cons t ts => simp [Tree.ofMatch, shiftAll, Tree.shift, Cursor.spanTo, Span.shift]

/-- The miss further on. -/
def Miss.shift (k : Nat) (miss : Miss) : Miss :=
  { miss with offset := miss.offset + k }

namespace Outcome

/-- The outcome further on. -/
def shift (k : Nat) : Outcome → Outcome
  | overflow o => overflow { o with offset := o.offset + k }
  | failed log => failed (log.map (Miss.shift k))
  | matched stop captures log =>
    matched (stop.shift k) (shiftAll k captures) (log.map (Miss.shift k))

end Outcome

/-- Every place is further on. -/
def Transfer.further (k : Nat) : Transfer where
  distance := k
  rule := id
  trees := shiftAll k
  miss := Miss.shift k
  Spills v o := o = .overflow { v with offset := v.offset + k }
  trees_nil := rfl
  trees_append := shiftAll_append k
  trees_ofMatch id c stop ts := by rw [shiftAll, shiftAll, ← Tree.ofMatch_shift]; rfl
  miss_mk _ _ id := by cases id <;> rfl
  spills _ _ h _ hchange := h ▸ hchange _

theorem Transfer.further_turns_iff {k : Nat} {o o' : Outcome} :
    (further k).Turns o o' ↔ o' = o.shift k := by
  cases o <;> exact Iff.rfl

/-- A call further on gives what it gives here, further on. -/
theorem Grammar.outcome_shift (g : Grammar) (k left : Nat) (mode : Mode) (id : RuleId) (c : Cursor) :
    g.outcome left mode id (c.shift k) = (g.outcome left mode id c).shift k :=
  Transfer.further_turns_iff.mp
    (outcome_turns (t := .further k) g.renumberedBy_id 0 (fun _ _ _ => rfl) left mode id c)

end PegTree
