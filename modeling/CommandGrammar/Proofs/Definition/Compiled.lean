import CommandGrammar.Definition.Basic
import CommandGrammar.Proofs.Tree.Built

/-!
# Compiled definitions

Every node of a compiled tree has the header of some definition in the file. Merging siblings of one
name drops headers and makes none.
-/

namespace CommandGrammar.NodeDefinition

/-- The definition is `d` or stands somewhere below it. -/
inductive Within (e : NodeDefinition) : NodeDefinition → Prop where
  | self : Within e e
  | inChild {c d : NodeDefinition} (hmem : c ∈ d.children) (hwithin : Within e c) : Within e d

variable {Source : Type} [PermissionSource Source]
  {P : NodeHeader Source ArgumentValue → List (Node Source ArgumentValue) → Prop}

mutual

/-- What holds of the headers of all definitions, and is not lost by `put`, holds of the tree. -/
theorem everywhere_compile
    (hput : ∀ (h : NodeHeader Source ArgumentValue) (m : Node Source ArgumentValue)
      (ms : List (Node Source ArgumentValue)), P h ms → P h (Node.put m ms)) :
    ∀ d : NodeDefinition, (∀ e : NodeDefinition, e.Within d → P e.header []) →
      (d.compile : Node Source ArgumentValue).Everywhere P
  | ⟨name, argument, caseSensitive, requires, executes, children⟩, hd => by
    rw [compile]
    refine Node.Everywhere.build hput ?_ ?_
    · exact hd ⟨name, argument, caseSensitive, requires, executes, children⟩ .self
    · exact everywhere_compileAll hput children fun c hc e he => hd e (.inChild hc he)

theorem everywhere_compileAll
    (hput : ∀ (h : NodeHeader Source ArgumentValue) (m : Node Source ArgumentValue)
      (ms : List (Node Source ArgumentValue)), P h ms → P h (Node.put m ms)) :
    ∀ ds : List NodeDefinition,
      (∀ d ∈ ds, ∀ e : NodeDefinition, e.Within d → P e.header []) →
      ∀ n ∈ (compileAll ds : List (Node Source ArgumentValue)), n.Everywhere P
  | [], _ => by
    intro n hn
    cases hn
  | d :: ds, hds => by
    intro n hn
    rw [compileAll] at hn
    rcases List.mem_cons.mp hn with rfl | hmem
    · exact everywhere_compile hput d (hds d List.mem_cons_self)
    · exact everywhere_compileAll hput ds (fun e he => hds e (.tail _ he)) n hmem

end

mutual

theorem built_compile : ∀ d : NodeDefinition, (d.compile : Node Source ArgumentValue).Built
  | ⟨name, argument, caseSensitive, requires, executes, children⟩ => by
    rw [compile]
    exact .build _ (built_compileAll children)

theorem built_compileAll : ∀ ds : List NodeDefinition,
    ∀ n ∈ (compileAll ds : List (Node Source ArgumentValue)), n.Built
  | [] => by
    intro n hn
    cases hn
  | d :: ds => by
    intro n hn
    rw [compileAll] at hn
    rcases List.mem_cons.mp hn with rfl | hmem
    · exact built_compile d
    · exact built_compileAll ds n hmem

end

theorem namesDistinct_compile (d : NodeDefinition) :
    (d.compile : Node Source ArgumentValue).NamesDistinct :=
  (built_compile d).namesDistinct

end CommandGrammar.NodeDefinition
