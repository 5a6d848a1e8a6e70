/-
Who writes which instruction.

An instruction is written by the rule of some node, or for no node at all: those that end
the main function are not part of the query.  What a rule writes besides having its parts
lowered is its own, also the instruction that drops the value of a part, and those that end
the function a lambda makes.

The `Lineage` of a node is the node with the nodes around it, from the inside out.  To find
out who wrote what, a query is lowered once more, with signatures in the place of lines:
`signWithin` takes the rules as they are, and has everything that the rule of a node writes
signed with the lineage of the node.  Where lines come from and how they are put back plays
no part in this.

Three things are shown about it.  With a signature by the line that belongs to a lineage,
signing is what the compiler does.  A lineage that is not one of a node of the query does
not matter.  And another signature only makes a difference to the lines.
-/
import QueryCompiler.Proofs.Lines.Lineless

namespace QueryCompiler

open Workspace

/-- A node and the nodes around it, from the inside out; or nothing, for what is written for no
node. -/
abbrev Lineage := List Node

namespace Lineage

/-- The line of the nearest node that has one. -/
def line : Lineage → Nat
  | [] => 0
  | node :: above => if node.span.isSynthetic then line above else node.span.line

/-- The nodes stand in a tree, one inside the other, with its root around them all. -/
inductive Rooted (root : Node) : Lineage → Prop
  | nobody : Rooted root []
  | root : Rooted root [root]
  | part {node parent : Node} {above : Lineage} (hpart : node ∈ parent.children)
      (h : Rooted root (parent :: above)) : Rooted root (node :: parent :: above)

/-- The lineages of a node below others and of the nodes in it, down to a depth. -/
def within : (room : Nat) → Lineage → Node → List Lineage
  | 0, _, _ => []
  | room + 1, above, node =>
    (node :: above) :: node.children.flatMap (within room (node :: above))

theorem rooted_of_within {root : Node} {room : Nat} {above : Lineage} {node : Node}
    (h : Rooted root (node :: above)) :
    ∀ lineage ∈ within room above node, Rooted root lineage := by
  induction room generalizing above node with
  | zero => exact fun _ hmem => absurd hmem List.not_mem_nil
  | succ room ih =>
      intro lineage hmem
      rcases List.mem_cons.mp hmem with rfl | hmem
      · exact h
      · obtain ⟨part, hpart, hmem⟩ := List.mem_flatMap.mp hmem
        exact ih (.part hpart h) lineage hmem

end Lineage

/-! ### Signing -/

/-- Once a node has been lowered, what is written next gets a signature. -/
def Lower.signing (lower : Lower) (signature : Nat) : Lower := fun node => do
  lower node
  moveToLine signature

/-- Lower a node below others, in a tree that may go down `room` more levels.  The rule of the node
signs what it writes: before anything else, and again after each of the parts. -/
def signWithin (settings : Settings) (sign : Lineage → Nat) : (room : Nat) → Lineage → Lower
  | 0, _ => fun node => Action.fail (.tooDeep settings.maxDepth node.span)
  | room + 1, above => fun node =>
    Contract.supervise { settings with lineInfo := false } node do
      moveToLine (sign (node :: above))
      Rule.standard node.construct
        ((signWithin settings sign room (node :: above)).signing (sign (node :: above))) node

/-- Lower a tree as the main function, where what is written for no node is signed as such. -/
def signMain (settings : Settings) (sign : Lineage → Nat) (root : Node) :
    Action Workspace Unit := do
  moveToLine (sign [])
  ((signWithin settings sign settings.maxDepth []).signing (sign [])).main root

/-- The program of a query, with signatures in the place of lines. -/
def Compiler.signed (settings : Settings) (sign : Lineage → Nat) (root : Node) : Option Program :=
  match signMain settings sign root (start ⟨.standard, settings⟩ false) with
  | .done () ws => some ws.code.toProgram
  | .failed _ _ | .fault _ => none

/-! ### The compiler signs with lines -/

variable {settings : Settings} {sign : Lineage → Nat} {root : Node}

/-- A node leaves the line as it was. -/
theorem lowerWithin_line {room : Nat} {node : Node} {ws ws' : Workspace} {u : Unit}
    (h : lowerWithin .standard settings room node ws = .done u ws') :
    ws'.code.line = ws.code.line := by
  cases room with
  | zero => cases h
  | succ room =>
      have hline := Contract.supervise_line settings node
        (Rule.standard node.construct (lowerWithin .standard settings room) node) ws
      rw [show Contract.supervise settings node _ ws = _ from h] at hline
      exact hline

/-- An orderly action does the same if the line it is at is set again after each of the parts. -/
theorem Orderly.signing {α : Type} {own : Option FrameId} {plan : Plan}
    {act : Lower → Action Workspace α} (h : Orderly Assembly.KeepsLine own plan act) {room : Nat}
    {lower : Lower} {ws : Workspace}
    (hsame : ∀ node (inside : Workspace), inside.code.line = ws.code.line →
      lower node inside = lowerWithin .standard settings room node inside) :
    act (lower.signing ws.code.line) ws = act (lowerWithin .standard settings room) ws := by
  refine (h.congr (I := fun code => code.line = ws.code.line) ?_ ?_ ?_ rfl).1
  · exact fun code code' hkept hline => hkept.trans hline
  · intro node _ inside hline
    unfold Lower.signing
    rw [Action.bind_apply, hsame node inside hline]
    cases hlower : lowerWithin .standard settings room node inside with
    | done u after =>
        have hafter : after.code.line = ws.code.line := (lowerWithin_line hlower).trans hline
        show Outcome.done () (after.atLine ws.code.line) = _
        rw [← hafter]
        rfl
    | failed error after => rfl
    | fault fault => rfl
  · exact fun node _ inside u after hline hlower => (lowerWithin_line hlower).trans hline

/-- **The line that a node is lowered at is that of its lineage.** -/
theorem signWithin_line (hlines : settings.lineInfo = true) {room : Nat} {above : Lineage}
    {node : Node} {ws : Workspace} (hline : ws.code.line = above.line) :
    signWithin settings Lineage.line room above node ws =
      lowerWithin .standard settings room node ws := by
  induction room generalizing above node ws with
  | zero => rfl
  | succ room ih =>
      have hstart : Contract.startLine settings node ws.code.line =
          Lineage.line (node :: above) := by
        rw [Contract.startLine, hlines, hline, Lineage.line]
        cases node.span.isSynthetic <;> rfl
      have horderly : Orderly Assembly.KeepsLine none node.plan fun lower =>
          Rule.standard node.construct lower node := Rule.standard_orderly node
      let ws₁ : Workspace := ws.atLine (Lineage.line (node :: above))
      let lower : Lower := signWithin settings Lineage.line room (node :: above)
      have hrule : Rule.standard node.construct (lower.signing ws₁.code.line) node ws₁ =
          Rule.standard node.construct (lowerWithin .standard settings room) node ws₁ :=
        horderly.signing fun part inside hinside => ih hinside
      show Contract.supervise _ node _ ws = Contract.supervise settings node _ ws
      rw [Contract.supervise_apply, Contract.supervise_apply settings, hstart, ← hrule]
      rfl

/-- **The compiler writes lines the way lineages are signed with their lines.** -/
theorem signMain_line (hlines : settings.lineInfo = true) (traced : Bool) (root : Node) :
    signMain settings Lineage.line root (Compiler.start ⟨.standard, settings⟩ traced) =
      Compiler.lowerMain ⟨.standard, settings⟩ root
        (Compiler.start ⟨.standard, settings⟩ traced) := by
  let ws : Workspace := (Compiler.start ⟨.standard, settings⟩ traced).entered (.function 0 0)
  have horderly : Orderly Assembly.Continues none (.part root .nothing) fun lower =>
      lower.body root := .body root
  have hbody : ((signWithin settings Lineage.line settings.maxDepth []).signing ws.code.line).body
        root ws = (lowerWithin .standard settings settings.maxDepth).body root ws :=
    horderly.keepsLine.signing fun node inside hinside => signWithin_line hlines hinside
  exact Lower.main_congr hbody

/-! ### Only lineages of the query matter -/

theorem signWithin_congr {sign sign' : Lineage → Nat} {room : Nat} {above : Lineage} {node : Node}
    (h : ∀ lineage ∈ Lineage.within room above node, sign' lineage = sign lineage) :
    signWithin settings sign' room above node = signWithin settings sign room above node := by
  induction room generalizing above node with
  | zero => rfl
  | succ room ih =>
      have hown : sign' (node :: above) = sign (node :: above) := h _ List.mem_cons_self
      have hparts : ∀ part ∈ node.children,
          (signWithin settings sign' room (node :: above)).signing (sign (node :: above)) part =
          (signWithin settings sign room (node :: above)).signing (sign (node :: above)) part := by
        intro part hpart
        unfold Lower.signing
        rw [ih fun lineage hmem => h lineage
          (List.mem_cons_of_mem _ (List.mem_flatMap.mpr ⟨part, hpart, hmem⟩))]
      unfold signWithin
      rw [hown, Rule.standard_local node.construct hparts]

theorem signMain_congr {sign sign' : Lineage → Nat} (hnobody : sign' [] = sign [])
    (h : ∀ lineage ∈ Lineage.within settings.maxDepth [] root, sign' lineage = sign lineage) :
    signMain settings sign' root = signMain settings sign root := by
  have hroot : (signWithin settings sign' settings.maxDepth []).signing (sign []) root =
      (signWithin settings sign settings.maxDepth []).signing (sign []) root := by
    unfold Lower.signing
    rw [signWithin_congr h]
  unfold signMain Lower.main
  rw [hnobody, Lower.body_local hroot]

/-! ### Another signature -/

theorem moveToLine_relined (r : Relining) (line : Nat) :
    r.Shows id (moveToLine line) (moveToLine (r.line line)) :=
  fun _ => rfl

theorem Lower.signing_relined {r : Relining} {lower lower' : Lower}
    (h : ∀ node, r.Shows id (lower node) (lower' node)) (signature : Nat) (node : Node) :
    r.Shows id (lower.signing signature node) (lower'.signing (r.line signature) node) :=
  .bind (h node) fun _ => moveToLine_relined r signature

/-- **Signatures that are changed give the lines, changed in the same way.** -/
theorem signWithin_relined (change : Nat → Nat) (room : Nat) (above : Lineage) (node : Node) :
    (Relining.ofLine change).Shows id (signWithin settings sign room above node)
      (signWithin settings (change ∘ sign) room above node) := by
  induction room generalizing above node with
  | zero => exact .fail _
  | succ room ih =>
      have hline : ∀ line, Contract.startLine { settings with lineInfo := false } node
          (change line) = change (Contract.startLine { settings with lineInfo := false } node line) :=
        fun line => rfl
      refine Contract.supervise_relined hline (.bind (moveToLine_relined _ _) fun _ => ?_)
      exact (Rule.standard_lineless node).relines _ _
        (Lower.signing_relined (ih (node :: above)) (sign (node :: above)))

theorem signMain_relined (change : Nat → Nat) (root : Node) :
    (Relining.ofLine change).Shows id (signMain settings sign root)
      (signMain settings (change ∘ sign) root) :=
  .bind (moveToLine_relined _ _) fun _ => (Lower.main_lineless root).relines _ _
    (Lower.signing_relined (signWithin_relined change settings.maxDepth []) (sign []))

end QueryCompiler
