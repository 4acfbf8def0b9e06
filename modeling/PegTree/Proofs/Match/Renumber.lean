import PegTree.Proofs.Match.Transfer

/-!
# Matching does not look at numbers

An id is only used to look up a rule and to mark what comes of it: nodes, misses and an overflow.  So if
a grammar has the rules of another one at other places, running a rule of the one comes to what running it
in the other comes to, with every mark moved along (`Grammar.RenumberedBy.outcome_eq`).
-/

namespace PegTree

/-! ## Moving marks -/

mutual

/-- The tree with the rule of every node moved. -/
def Tree.renumber (σ : RuleId → RuleId) : Tree → Tree
  | .leaf rule span value => .leaf (σ rule) span value
  | .branch rule span children => .branch (σ rule) span (renumberTrees σ children)

/-- The trees with the rule of every node moved. -/
def renumberTrees (σ : RuleId → RuleId) : List Tree → List Tree
  | [] => []
  | t :: ts => t.renumber σ :: renumberTrees σ ts

end

variable (σ : RuleId → RuleId)

theorem renumberTrees_append (ts us : List Tree) :
    renumberTrees σ (ts ++ us) = renumberTrees σ ts ++ renumberTrees σ us := by
  induction ts with
  | nil => rfl
  | cons t ts ih => simp [renumberTrees, ih]

/-- The node of a match of the moved rule. -/
theorem Tree.ofMatch_renumber (rule : RuleId) (c stop : Cursor) (ts : List Tree) :
    Tree.ofMatch (σ rule) c stop (renumberTrees σ ts) = (Tree.ofMatch rule c stop ts).renumber σ := by
  cases ts <;> rfl

/-- The miss in the moved rule. -/
def Miss.renumber (miss : Miss) : Miss :=
  { miss with rule := miss.rule.map σ }

namespace Outcome

/-- The outcome with every rule in it moved. -/
def renumber : Outcome → Outcome
  | overflow o => overflow { o with rule := σ o.rule }
  | failed log => failed (log.map (Miss.renumber σ))
  | matched stop captures log => matched stop (renumberTrees σ captures) (log.map (Miss.renumber σ))

end Outcome

/-- Every rule is moved. -/
def Transfer.renumbered : Transfer where
  distance := 0
  rule := σ
  trees := renumberTrees σ
  miss := Miss.renumber σ
  Spills v o := o = .overflow { v with rule := σ v.rule }
  trees_nil := rfl
  trees_append := renumberTrees_append σ
  trees_ofMatch id c stop ts := by rw [renumberTrees, renumberTrees, ← Tree.ofMatch_renumber]; rfl
  miss_mk _ _ _ := rfl
  spills _ _ h _ hchange := h ▸ hchange _

theorem Transfer.renumbered_turns_iff {o o' : Outcome} :
    (renumbered σ).Turns o o' ↔ o' = o.renumber σ := by
  cases o <;> exact Iff.rfl

/-! ## Rules -/

namespace Grammar.RenumberedBy

variable {σ} {g g' : Grammar}

theorem skipOutcome_eq (h : g.RenumberedBy σ g') {call call' : Mode → RuleId → Cursor → Outcome}
    (hcall : ∀ mode id c, call' mode (σ id) c = (call mode id c).renumber σ) (mode : Mode)
    (c : Cursor) : g'.skipOutcome call' mode c = (g.skipOutcome call mode c).renumber σ :=
  (Transfer.renumbered_turns_iff σ).mp (skipOutcome_turns h.skip
    (fun mode id c => (Transfer.renumbered_turns_iff σ).mpr (hcall mode id c)) mode c)

/-- Running a moved rule comes to what running it in its old place does. -/
theorem outcome_eq (h : g.RenumberedBy σ g') (left : Nat) (mode : Mode) (id : RuleId) (c : Cursor) :
    g'.outcome left mode (σ id) c = (g.outcome left mode id c).renumber σ :=
  (Transfer.renumbered_turns_iff σ).mp
    (outcome_turns (t := .renumbered σ) h 0 (fun _ _ _ => rfl) left mode id c)

/-- A rule of which the id stays gives the same, if moving ids makes no difference to the old grammar. -/
theorem outcome_eq_of_fixed (h : g.RenumberedBy σ g') (hself : g.RenumberedBy σ g) {id : RuleId}
    (hid : σ id = id) (left : Nat) (mode : Mode) (c : Cursor) :
    g'.outcome left mode id c = g.outcome left mode id c := by
  have hnew := h.outcome_eq left mode id c
  have hold := hself.outcome_eq left mode id c
  rw [hid] at hnew hold
  exact hnew.trans hold.symm

/-- So does the skip rule. -/
theorem skipOutcome_eq_of_self (h : g.RenumberedBy σ g') (hself : g.RenumberedBy σ g) (left : Nat)
    (mode : Mode) (c : Cursor) :
    g'.skipOutcome (g'.outcome left) mode c = g.skipOutcome (g.outcome left) mode c :=
  (h.skipOutcome_eq (h.outcome_eq left) mode c).trans
    (hself.skipOutcome_eq (hself.outcome_eq left) mode c).symm

end Grammar.RenumberedBy

end PegTree
