import CommandGrammar.Proofs.Tree.Editing
import CommandGrammar.Proofs.Tree.FirstFault

/-!
# Trees that grow

A tree without a fault stays without one when children without faults are added anywhere in it. What
is added brings no new header but its own, and a node that gets a child does not end a branch, also
where the executor of a new node is dropped.
-/

namespace CommandGrammar.Node

variable {Source Value : Type}

theorem put_ne_nil (m : Node Source Value) (ms : List (Node Source Value)) : put m ms ≠ [] := by
  cases ms with
  | nil => exact List.cons_ne_nil m []
  | cons first ms =>
      rw [put]
      split_ifs <;> exact List.cons_ne_nil _ _

theorem Works.put {h : NodeHeader Source Value} {ms : List (Node Source Value)}
    (hworks : Works ⟨h, ms⟩) (m : Node Source Value) : Works ⟨h, put m ms⟩ where
  named := hworks.named
  spellable := hworks.spellable
  leadsOn hempty := absurd hempty (put_ne_nil m ms)

/-- **A tree without a fault grows without one.** A child without a fault can be added to any node of
the tree, and the tree that this gives has no fault. -/
theorem fault?_grown {t d c : Node Source Value} {path : List String} (ht : t.fault? = none)
    (hd : t.at? path = some d) (hc : c.fault? = none) :
    ∃ t', modifyAt? (fun n => n.addChild c) path t = some t'
      ∧ t'.at? path = some (d.addChild c) ∧ t'.fault? = none := by
  obtain ⟨t', hmodify, hat⟩ := exists_modifyAt?_eq_some (fun n => header_addTo c n) hd
  refine ⟨t', hmodify, hat, ?_⟩
  rw [fault?, faultBelow?_eq_none_iff_everywhere] at ht hc ⊢
  have hput : ∀ (h : NodeHeader Source Value) (m : Node Source Value)
      (ms : List (Node Source Value)), Works ⟨h, ms⟩ → Works ⟨h, Node.put m ms⟩ :=
    fun h m ms hworks => hworks.put m
  exact ht.modifyAt? hput (fun n hn => hc.addTo hput hn) hmodify

/-- A keyword over an argument over a keyword that leads on to one that runs something. -/
def branchToRun : Node Unit ArgumentValue :=
  ⟨.literal "give" true, [⟨.argument "target" Parser.word,
    [⟨.literal "all" true,
      [⟨(NodeHeader.literal "now" true).executes fun _ => .ok default, []⟩]⟩]⟩]⟩

def keywordToRun : Node Unit ArgumentValue :=
  ⟨(NodeHeader.literal "all" true).executes fun _ => .ok default, []⟩

/-- A branch that may stand for the argument or behind it. -/
def targetSelf : Node Unit ArgumentValue :=
  ⟨.literal "target" true, [⟨(NodeHeader.literal "self" true).executes fun _ => .ok default, []⟩]⟩

/-- Below the argument the keyword is merged into one that it finds there and loses its executor,
and a branch of a new name is put beside that one. At the root the branch takes the place of the
argument with everything below it. -/
theorem fault?_grown_branchToRun :
    branchToRun.fault? = none ∧ keywordToRun.fault? = none ∧ targetSelf.fault? = none
      ∧ (∃ t', modifyAt? (fun n => n.addChild keywordToRun) ["target"] branchToRun = some t'
        ∧ (t'.at? ["target", "all"]).map isExecutable = some false ∧ t'.fault? = none)
      ∧ (∃ t', modifyAt? (fun n => n.addChild targetSelf) ["target"] branchToRun = some t'
        ∧ (t'.at? ["target", "target", "self"]).map isExecutable = some true
        ∧ (t'.at? ["target", "all", "now"]).map isExecutable = some true ∧ t'.fault? = none)
      ∧ ∃ t', modifyAt? (fun n => n.addChild targetSelf) [] branchToRun = some t'
        ∧ (t'.at? ["target", "self"]).map isExecutable = some true
        ∧ (t'.at? ["target", "all"]).isNone = true ∧ t'.fault? = none := by
  obtain ⟨argument, hargument⟩ : ∃ d, branchToRun.at? ["target"] = some d := ⟨_, rfl⟩
  have hroot : branchToRun.at? [] = some branchToRun := rfl
  refine ⟨rfl, rfl, rfl, ?_, ?_, ?_⟩
  · obtain ⟨t', hmerge, -, hfault⟩ := fault?_grown (c := keywordToRun) rfl hargument rfl
    refine ⟨t', hmerge, ?_, hfault⟩
    obtain rfl := Option.some.inj hmerge
    rfl
  · obtain ⟨t', hinsert, -, hfault⟩ := fault?_grown (c := targetSelf) rfl hargument rfl
    refine ⟨t', hinsert, ?_, ?_, hfault⟩
    · obtain rfl := Option.some.inj hinsert
      rfl
    · obtain rfl := Option.some.inj hinsert
      rfl
  · obtain ⟨t', hreplace, -, hfault⟩ := fault?_grown (c := targetSelf) rfl hroot rfl
    refine ⟨t', hreplace, ?_, ?_, hfault⟩
    · obtain rfl := Option.some.inj hreplace
      rfl
    · obtain rfl := Option.some.inj hreplace
      rfl

end CommandGrammar.Node
