import CommandGrammar.Proofs.Tree.Editing

/-!
# Trees that are built

A tree comes about by building nodes over others and by adding children to nodes that are there
already. Whatever is done in this way, the children of every node are listed by name and no two of
them share one.
-/

namespace CommandGrammar.Node

variable {Source Value : Type}

/-- The tree comes about by building nodes, adding children anywhere, and copying parts of trees. -/
inductive Built : Node Source Value → Prop where
  | build (h : NodeHeader Source Value) {children : List (Node Source Value)}
      (hchildren : ∀ c ∈ children, Built c) : Built (build h children)
  | grow {t t' c : Node Source Value} {path : List String} (ht : Built t) (hc : Built c)
      (hgrow : modifyAt? (fun n => n.addChild c) path t = some t') : Built t'
  | part {t n : Node Source Value} {path : List String} (ht : Built t)
      (hat : t.at? path = some n) : Built n

theorem built_leaf (h : NodeHeader Source Value) : Built ⟨h, []⟩ :=
  @Built.build Source Value h [] fun c hc => by cases hc

theorem Built.ascending {t : Node Source Value} (ht : t.Built) :
    t.Everywhere fun _ children => Ascending children := by
  induction ht with
  | build h _ ih => exact .build (fun _ n _ hms => ascending_put n hms) .nil ih
  | grow _ _ hgrow iht ihc =>
      have hput : ∀ (_ : NodeHeader Source Value) (n : Node Source Value)
          (ms : List (Node Source Value)), Ascending ms → Ascending (put n ms) :=
        fun _ n _ hms => ascending_put n hms
      exact iht.modifyAt? hput (fun n hn => ihc.addTo hput hn) hgrow
  | part _ hat ih => exact ih.of_at? hat

theorem Built.namesDistinct {t : Node Source Value} (ht : t.Built) : t.NamesDistinct :=
  ht.ascending.namesDistinct

end CommandGrammar.Node
