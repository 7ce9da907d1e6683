import CommandGrammar.Proofs.Tree.Everywhere
import CommandGrammar.Proofs.Tree.Merging

/-!
# One node changed

A node is changed at the end of a path. As long as it keeps its header, it stays in its place, and
what holds of every node, and is not lost by the change or by `put`, holds of every node afterwards.
-/

namespace CommandGrammar.Node

variable {Source Value : Type} {f : Node Source Value → Node Source Value}
  {n n' : Node Source Value} {path : List String}

theorem modifyAt?_cons_eq_some_iff {name : String} :
    modifyAt? f (name :: path) n = some n'
      ↔ ∃ c c', n.child? name = some c ∧ modifyAt? f path c = some c'
        ∧ n' = ⟨n.header, put c' n.children⟩ := by
  rw [modifyAt?]
  constructor
  · intro h
    obtain ⟨c, hc, h⟩ := Option.bind_eq_some_iff.mp h
    obtain ⟨c', hmodify, h⟩ := Option.bind_eq_some_iff.mp h
    exact ⟨c, c', hc, hmodify, (Option.some.inj h).symm⟩
  · rintro ⟨c, c', hc, hmodify, rfl⟩
    exact Option.bind_eq_some_iff.mpr ⟨c, hc, Option.bind_eq_some_iff.mpr ⟨c', hmodify, rfl⟩⟩

theorem header_modifyAt? (hf : ∀ m, (f m).header = m.header) (h : modifyAt? f path n = some n') :
    n'.header = n.header := by
  cases path with
  | nil =>
      rw [modifyAt?] at h
      exact Option.some.inj h ▸ hf n
  | cons name path =>
      obtain ⟨c, c', -, -, rfl⟩ := modifyAt?_cons_eq_some_iff.mp h
      rfl

/-- A node that is there can be changed, and is found changed in its place. -/
theorem exists_modifyAt?_eq_some (hf : ∀ m, (f m).header = m.header) {t d : Node Source Value}
    (hat : t.at? path = some d) :
    ∃ t', modifyAt? f path t = some t' ∧ t'.at? path = some (f d) := by
  induction path generalizing t with
  | nil =>
      obtain rfl := Option.some.inj hat
      exact ⟨f t, rfl, rfl⟩
  | cons name path ih =>
      obtain ⟨c, hc, hat⟩ := Option.bind_eq_some_iff.mp hat
      obtain ⟨c', hmodify, hat'⟩ := ih hat
      have hname : c'.name = name := by
        rw [Node.name, header_modifyAt? hf hmodify]
        exact name_eq_of_child? hc
      refine ⟨_, modifyAt?_cons_eq_some_iff.mpr ⟨c, c', hc, hmodify, rfl⟩, ?_⟩
      rw [at?_cons, child?, find?_put, if_pos hname, Option.bind_some, hat']

theorem Everywhere.modifyAt? {P : NodeHeader Source Value → List (Node Source Value) → Prop}
    (hput : ∀ (h : NodeHeader Source Value) (m : Node Source Value) (ms : List (Node Source Value)),
      P h ms → P h (put m ms))
    (hf : ∀ m : Node Source Value, m.Everywhere P → (f m).Everywhere P) (hn : n.Everywhere P)
    (h : modifyAt? f path n = some n') : n'.Everywhere P := by
  induction path generalizing n n' with
  | nil =>
      obtain rfl := Option.some.inj h
      exact hf n hn
  | cons name path ih =>
      obtain ⟨c, c', hc, hmodify, rfl⟩ := modifyAt?_cons_eq_some_iff.mp h
      refine .node (hput _ _ _ hn.here) fun d hd => ?_
      rcases eq_or_mem_of_mem_put hd with rfl | hmem
      · exact ih (hn.of_mem (mem_children_of_child? hc)) hmodify
      · exact hn.of_mem hmem

end CommandGrammar.Node
