import CommandGrammar.Proofs.Tree.Everywhere

/-!
# The same child again

The first time a child is added it may be put in place, or take the place of another, or be merged
into one that is there. The second time it meets what became of it, and merging a tree into itself,
or into what it was merged into, changes nothing.
-/

namespace CommandGrammar.Node

variable {Source Value : Type}

/-- What a child does not change, several of them do not change. -/
theorem addAllTo_eq_self {cs : List (Node Source Value)} {parent : Node Source Value}
    (h : ∀ c ∈ cs, c.addTo parent = parent) : addAllTo cs parent = parent := by
  induction cs with
  | nil => rfl
  | cons c cs ih =>
      obtain ⟨hfirst, hrest⟩ := List.forall_mem_cons.mp h
      rw [addAllTo, hfirst, ih hrest]

/-- Children of different names, each of which changes nothing the second time, change nothing
together the second time. -/
theorem addAllTo_addAllTo {cs : List (Node Source Value)} (hnodup : (cs.map name).Nodup)
    (htwice : ∀ c ∈ cs, ∀ parent : Node Source Value, c.addTo (c.addTo parent) = c.addTo parent)
    (parent : Node Source Value) : addAllTo cs (addAllTo cs parent) = addAllTo cs parent := by
  induction cs generalizing parent with
  | nil => rfl
  | cons c cs ih =>
      rw [List.map_cons, List.nodup_cons] at hnodup
      obtain ⟨hnew, hnodup⟩ := hnodup
      obtain ⟨hfirst, hrest⟩ := List.forall_mem_cons.mp htwice
      have hne : ∀ d ∈ cs, d.name ≠ c.name := by
        intro d hd heq
        exact hnew (heq ▸ List.mem_map_of_mem hd)
      calc addAllTo (c :: cs) (addAllTo (c :: cs) parent)
          = addAllTo cs (c.addTo (addAllTo cs (c.addTo parent))) := by rw [addAllTo, addAllTo]
        _ = addAllTo cs (addAllTo cs (c.addTo (c.addTo parent))) := by
            rw [addAllTo_addTo_comm hne (c.addTo parent)]
        _ = addAllTo cs (addAllTo cs (c.addTo parent)) := by rw [hfirst parent]
        _ = addAllTo (c :: cs) parent := by rw [ih hnodup hrest, addAllTo]

/-- A tree merged into itself is the tree. -/
theorem addAllTo_children_self {n : Node Source Value}
    (hn : n.Everywhere fun _ children => Ascending children) : addAllTo n.children n = n := by
  induction hn with
  | @node h children hascending hbelow ih =>
      have hdistinct : NamesDistinct ⟨h, children⟩ :=
        Everywhere.namesDistinct (.node hascending hbelow)
      refine addAllTo_eq_self fun c hc => ?_
      have hchild : child? ⟨h, children⟩ c.name = some c :=
        hdistinct.child?_eq_some_iff.mpr ⟨hc, rfl⟩
      have hjoined : joined ⟨h, children⟩ c = c := by
        cases hkind : isLiteral ⟨h, children⟩ with
        | true => exact joined_of_isLiteral c hkind
        | false => rw [joined_of_isLiteral_eq_false hkind hchild, ih c hc]
      rw [addTo_eq, hjoined, put_of_mem hascending hc]

/-- What stands under the name of a child stands there also when the child comes again. -/
theorem joined_addTo_self {c parent : Node Source Value}
    (hmerged : addAllTo c.children (parent.joined c) = parent.joined c) :
    (c.addTo parent).joined c = parent.joined c := by
  have hchild : (c.addTo parent).child? c.name = some (parent.joined c) := by
    rw [child?_addTo, if_pos rfl]
  have hkept := isLiteral_addTo c parent
  cases hkind : parent.isLiteral with
  | true => rw [joined_of_isLiteral c (hkept.trans hkind), joined_of_isLiteral c hkind]
  | false => rw [joined_of_isLiteral_eq_false (hkept.trans hkind) hchild, hmerged]

/-- **Adding a child twice is adding it once.** Whatever the parent is, and whatever it has under the
name of the child, the second time changes nothing in the tree. -/
theorem addChild_addChild {c : Node Source Value}
    (hc : c.Everywhere fun _ children => Ascending children) (parent : Node Source Value) :
    (parent.addChild c).addChild c = parent.addChild c := by
  have hself := addAllTo_children_self hc
  have hdistinct := hc.namesDistinct
  -- on the tree that is added: what is below a child of it meets what it was merged into before
  induction hc generalizing parent with
  | @node h children _ hbelow ih =>
      have htwice : ∀ d ∈ children, ∀ p : Node Source Value, d.addTo (d.addTo p) = d.addTo p :=
        fun d hd p => ih d hd p (addAllTo_children_self (hbelow d hd)) (hdistinct.of_mem hd)
      have hmerged :
          addAllTo children (parent.joined ⟨h, children⟩) = parent.joined ⟨h, children⟩ := by
        cases hold : parent.child? (name ⟨h, children⟩) with
        | none => rw [joined_of_child?_eq_none hold, hself]
        | some old =>
            cases hkind : parent.isLiteral with
            | true => rw [joined_of_isLiteral _ hkind, hself]
            | false =>
                rw [joined_of_isLiteral_eq_false hkind hold,
                  addAllTo_addAllTo hdistinct.nodup htwice]
      rw [addChild, addChild, addTo_eq _ (addTo _ parent), joined_addTo_self hmerged, header_addTo,
        addTo_eq, put_put_of_name_eq parent.children rfl]

/-- An argument over an argument `x` over a keyword `g`. -/
def argumentOverArgument : Node Unit ArgumentValue :=
  ⟨.argument "target" Parser.word,
    [⟨.argument "x" Parser.word, [⟨.literal "g" true, [⟨.literal "old" true, []⟩]⟩]⟩]⟩

/-- A keyword `x` over an argument `g`. -/
def keywordOverArgument : Node Unit ArgumentValue :=
  ⟨.literal "x" true, [⟨.argument "g" Parser.word, [⟨.literal "new" true, []⟩]⟩]⟩

theorem ascending_keywordOverArgument :
    keywordOverArgument.Everywhere fun _ children => Ascending children := by
  refine .node (List.pairwise_singleton _ _) fun c hc => ?_
  obtain rfl := List.mem_singleton.mp hc
  refine .node (List.pairwise_singleton _ _) fun c hc => ?_
  obtain rfl := List.mem_singleton.mp hc
  exact .node .nil fun c hc => by cases hc

/-- The two trees have a node of the other variant at either place. The argument and the keyword that
are there stay, and both times the keyword gets the new leaf beside the old one. -/
theorem addChild_addChild_keywordOverArgument :
    (keywordOverArgument.Everywhere fun _ children => Ascending children)
      ∧ ((argumentOverArgument.addChild keywordOverArgument).addChild keywordOverArgument).at?
          ["x", "g"]
        = some ⟨.literal "g" true, [⟨.literal "new" true, []⟩, ⟨.literal "old" true, []⟩]⟩ := by
  refine ⟨ascending_keywordOverArgument, ?_⟩
  rw [addChild_addChild ascending_keywordOverArgument]
  rfl

end CommandGrammar.Node
