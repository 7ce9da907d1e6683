import CommandGrammar.Proofs.Tree.Enumeration
import CommandGrammar.Proofs.Tree.Everywhere
import CommandGrammar.Proofs.Tree.Merging

/-!
# Children in fragments

An argument may get a child piece by piece, as several trees of one name. The pieces may also be put
together first and be added as one tree. The two differ only where a literal takes a subtree as a
whole and an argument merges it, so they agree if the old child and the first piece are of one
variant in every place that both of them have.
-/

namespace CommandGrammar.Node

variable {Source Value : Type} {c d e g parent : Node Source Value}

/-! ### Children of trees that are merged -/

theorem ascending_addAllTo (cs : List (Node Source Value)) (h : Ascending parent.children) :
    Ascending (addAllTo cs parent).children := by
  induction cs generalizing parent with
  | nil => exact h
  | cons c cs ih =>
      rw [addAllTo]
      apply ih
      rw [addTo_eq]
      exact ascending_put _ h

theorem child?_addAllTo_children (hc : Ascending c.children) (parent : Node Source Value)
    (name : String) :
    (addAllTo c.children parent).child? name
      = ((c.child? name).map parent.joined).or (parent.child? name) :=
  child?_addAllTo hc.nodup parent name

/-! ### Trees of the same variants -/

/-- Where both trees have a node, both nodes are literals or both are arguments. -/
def SameVariants (m n : Node Source Value) : Prop :=
  ∀ path m' n', m.at? path = some m' → n.at? path = some n' → m'.isLiteral = n'.isLiteral

theorem sameVariants_iff : SameVariants e c ↔ e.isLiteral = c.isLiteral
    ∧ ∀ name e' c', e.child? name = some e' → c.child? name = some c' → SameVariants e' c' := by
  constructor
  · intro h
    refine ⟨h [] e c rfl rfl, fun name e' c' he hc path m n hm hn => ?_⟩
    apply h (name :: path)
    · rw [at?_cons_of_child? he, hm]
    · rw [at?_cons_of_child? hc, hn]
  · rintro ⟨hkind, hbelow⟩ path m n hm hn
    cases path with
    | nil =>
        obtain rfl := Option.some.inj hm
        obtain rfl := Option.some.inj hn
        exact hkind
    | cons name path =>
        obtain ⟨e', he, hm⟩ := Option.bind_eq_some_iff.mp hm
        obtain ⟨c', hc, hn⟩ := Option.bind_eq_some_iff.mp hn
        exact hbelow name e' c' he hc path m n hm hn

/-! ### Merging by pieces -/

/-- An argument that has no child of the name takes the pieces as they are. If it has one, the
question is about that child. -/
theorem joined_addAllTo {ds : List (Node Source Value)} (hkind : parent.isLiteral = false)
    (hpieces : ∀ old, parent.child? c.name = some old →
      addAllTo (addAllTo ds c).children old = addAllTo ds (addAllTo c.children old)) :
    parent.joined (addAllTo ds c) = addAllTo ds (parent.joined c) := by
  have hname : (addAllTo ds c).name = c.name := name_addAllTo ds c
  cases hold : parent.child? c.name with
  | none =>
      have hfree : parent.child? (addAllTo ds c).name = none := by rw [hname, hold]
      rw [joined_of_child?_eq_none hfree, joined_of_child?_eq_none hold]
  | some old =>
      have hsame : parent.child? (addAllTo ds c).name = some old := by rw [hname, hold]
      rw [joined_of_isLiteral_eq_false hkind hsame, joined_of_isLiteral_eq_false hkind hold,
        hpieces old hold]

/-- What a new child becomes in the second tree, and that in the first, is what it becomes in the
two trees merged. -/
theorem joined_joined (hc : Ascending c.children) (hkind : e.isLiteral = c.isLiteral)
    (hpieces : ∀ old piece, e.child? g.name = some old → c.child? g.name = some piece →
      addAllTo (addAllTo g.children piece).children old
        = addAllTo g.children (addAllTo piece.children old)) :
    e.joined (c.joined g) = (addAllTo c.children e).joined g := by
  have hmerged : (addAllTo c.children e).isLiteral = e.isLiteral := isLiteral_addAllTo _ e
  have hfound := child?_addAllTo_children hc e g.name
  cases hliteral : e.isLiteral with
  | true =>
      rw [hliteral] at hkind hmerged
      rw [joined_of_isLiteral g hkind.symm, joined_of_isLiteral g hliteral,
        joined_of_isLiteral g hmerged]
  | false =>
      rw [hliteral] at hkind hmerged
      cases hpiece : c.child? g.name with
      | none =>
          rw [hpiece] at hfound
          rw [joined_of_child?_eq_none hpiece]
          exact (joined_congr (header_addAllTo _ e) hfound).symm
      | some piece =>
          have hname : piece.name = g.name := name_eq_of_child? hpiece
          rw [hpiece] at hfound
          rw [joined_of_isLiteral_eq_false hkind.symm hpiece,
            joined_of_isLiteral_eq_false hmerged hfound]
          apply joined_addAllTo hliteral
          intro old hold
          exact hpieces old piece (hname ▸ hold) hpiece

/-- Merging a tree into a tree with a piece merged into it is merging both pieces together. -/
theorem addAllTo_addAllTo_children (hd : d.Everywhere fun _ children => Ascending children)
    (he : e.Everywhere fun _ children => Ascending children)
    (hc : c.Everywhere fun _ children => Ascending children) (hsame : SameVariants e c) :
    addAllTo (addAllTo d.children c).children e
      = addAllTo d.children (addAllTo c.children e) := by
  -- on the last tree: name by name, what is below its children is merged by the same law
  induction hd generalizing e c with
  | @node h children hascending hbelow ih =>
      obtain ⟨hkind, hsame⟩ := sameVariants_iff.mp hsame
      have hpieces : ∀ g ∈ children, e.joined (c.joined g) = (addAllTo c.children e).joined g := by
        intro g hg
        apply joined_joined hc.here hkind
        intro old piece hold hpiece
        exact ih g hg (he.of_mem (mem_children_of_child? hold))
          (hc.of_mem (mem_children_of_child? hpiece)) (hsame g.name old piece hold hpiece)
      apply eq_of_child?
      · exact ascending_addAllTo _ he.here
      · exact ascending_addAllTo _ (ascending_addAllTo _ he.here)
      · rw [header_addAllTo, header_addAllTo, header_addAllTo]
      · intro name
        have hnew := child?_addAllTo_children (c := ⟨h, children⟩) hascending
        rw [child?_addAllTo_children (ascending_addAllTo children hc.here), hnew c, hnew,
          child?_addAllTo_children hc.here]
        cases hfound : child? ⟨h, children⟩ name with
        | none => rfl
        | some g =>
            have hg : g ∈ children := mem_children_of_child? hfound
            simp only [Option.map_some, Option.some_or, hpieces g hg]

/-- **Fragments may be put together first.** Two trees of one name are added to an argument. Adding
the children of the second to the first, in any order, and then the first to the argument gives the
same tree, if the argument has no child of the name, or its child and the first tree are of one
variant wherever both have a node. -/
theorem addChild_of_fragments (hparent : parent.Everywhere fun _ children => Ascending children)
    (hc : c.Everywhere fun _ children => Ascending children)
    (hd : d.Everywhere fun _ children => Ascending children) (hkind : parent.isArgument = true)
    (hname : d.name = c.name)
    (hsame : ∀ old, parent.child? c.name = some old → SameVariants old c)
    {order : List (Node Source Value)} (horder : order.Perm d.children) :
    (parent.addChild c).addChild d = parent.addChild (order.foldl addChild c) := by
  have hargument : parent.isLiteral = false := by simpa [isArgument] using hkind
  have hjoined : parent.joined (addAllTo d.children c)
      = addAllTo d.children (parent.joined c) := by
    apply joined_addAllTo hargument
    intro old hold
    exact addAllTo_addAllTo_children hd (hparent.of_mem (mem_children_of_child? hold)) hc
      (hsame old hold)
  calc (parent.addChild c).addChild d
      = ⟨parent.header, put (addAllTo d.children (parent.joined c)) parent.children⟩ :=
        addTo_addTo_of_isLiteral_eq_false hargument hname
    _ = parent.addChild (addAllTo d.children c) := by
        rw [← hjoined, addChild, addTo_eq]
    _ = parent.addChild (order.foldl addChild c) := by
        rw [addAllTo_eq_foldl, foldl_addChild_eq_of_perm hd.namesDistinct.nodup horder.symm]

/-- A list of items with one entry, both nodes of one kind. -/
def itemList (kind : NodeKind ArgumentValue) (entry : String) : Node Unit ArgumentValue :=
  ⟨⟨"item", kind, none, none⟩, [⟨⟨"list", kind, none, none⟩, [⟨.literal entry true, []⟩]⟩]⟩

def offerOf (item : Node Unit ArgumentValue) : Node Unit ArgumentValue :=
  ⟨.argument "offer" Parser.word, [item]⟩

theorem everywhere_ascending_of_singleton {h : NodeHeader Source Value}
    (hc : c.Everywhere fun _ children => Ascending children) :
    Everywhere (fun _ children => Ascending children) ⟨h, [c]⟩ := by
  refine .node (List.pairwise_singleton _ _) fun d hd => ?_
  rwa [List.mem_singleton.mp hd]

theorem ascending_itemList (kind : NodeKind ArgumentValue) (entry : String) :
    (itemList kind entry).Everywhere fun _ children => Ascending children := by
  apply everywhere_ascending_of_singleton
  apply everywhere_ascending_of_singleton
  exact .node .nil fun c hc => by cases hc

theorem sameVariants_itemList (parser : Parser ArgumentValue) (left right : String) :
    SameVariants (itemList (.argument parser) left) (itemList (.argument parser) right) := by
  have hsingle : ∀ {h : NodeHeader Unit ArgumentValue} {m n : Node Unit ArgumentValue} {name : String},
      child? ⟨h, [m]⟩ name = some n → n = m := fun hfound =>
    List.mem_singleton.mp (mem_children_of_child? hfound)
  refine sameVariants_iff.mpr ⟨rfl, fun _ _ _ hleft hright => ?_⟩
  rw [hsingle hleft, hsingle hright]
  refine sameVariants_iff.mpr ⟨rfl, fun _ _ _ hleft hright => ?_⟩
  rw [hsingle hleft, hsingle hright]
  exact sameVariants_iff.mpr ⟨rfl, fun _ _ _ hleft _ => by cases hleft⟩

/-- The argument `list` of the offer gets the entries of both fragments, also those of the keyword. -/
theorem addChild_of_fragments_itemList :
    SameVariants (itemList (.argument Parser.word) "old") (itemList (.argument Parser.word) "small")
      ∧ (((offerOf (itemList (.argument Parser.word) "old")).addChild
          (itemList (.argument Parser.word) "small")).addChild
            (itemList (.literal true) "large")).at? ["item", "list"]
        = some ⟨.argument "list" Parser.word, [⟨.literal "large" true, []⟩,
          ⟨.literal "old" true, []⟩, ⟨.literal "small" true, []⟩]⟩ := by
  have hoffer : (offerOf (itemList (.argument Parser.word) "old")).Everywhere
      fun _ children => Ascending children :=
    everywhere_ascending_of_singleton (ascending_itemList _ _)
  have hvariants := sameVariants_itemList Parser.word "old" "small"
  have hsame : ∀ old, (offerOf (itemList (.argument Parser.word) "old")).child? "item" = some old →
      SameVariants old (itemList (.argument Parser.word) "small") := by
    intro old hold
    obtain rfl := Option.some.inj hold
    exact hvariants
  have hsmall := ascending_itemList (.argument Parser.word) "small"
  have hlarge := ascending_itemList (.literal true) "large"
  refine ⟨hvariants, ?_⟩
  rw [addChild_of_fragments hoffer hsmall hlarge rfl rfl hsame (.refl _)]
  rfl

/-- Where a keyword meets an argument, the order counts. The keyword drops the first entry for the
second, but takes both if they come as one tree. -/
example : ((((offerOf (itemList (.literal true) "old")).addChild
      (itemList (.argument Parser.word) "small")).addChild
        (itemList (.literal true) "large")).at? ["item", "list", "small"]).isNone = true
    ∧ (((offerOf (itemList (.literal true) "old")).addChild
      ((itemList (.literal true) "large").children.foldl addChild
        (itemList (.argument Parser.word) "small"))).at? ["item", "list", "small"]).isSome = true :=
  ⟨rfl, rfl⟩

end CommandGrammar.Node
