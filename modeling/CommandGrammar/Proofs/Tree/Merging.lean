import CommandGrammar.Proofs.Tree.Children

/-!
# Which node stands at the end of a path

A child that is added meets an old tree. Where a literal of the old tree gets a child of the new one,
the new child takes the place with everything below it. Everywhere else what was there stays, and
the new tree fills the places that were free.
-/

namespace CommandGrammar.Node

variable {Source Value : Type}

/-- The node at a path of a tree in which `c` is the only child of the root. -/
def atAsChild? (c : Node Source Value) : List String → Option (Node Source Value)
  | [] => none
  | name :: path => if c.name = name then c.at? path else none

/-- Above the end of the path a literal of the old tree gets a child of the new one. -/
def Overridden (parent c : Node Source Value) (path : List String) : Prop :=
  ∃ above name below, path = above ++ name :: below
    ∧ (∃ n, parent.at? above = some n ∧ n.isLiteral = true)
    ∧ (c.atAsChild? (above ++ [name])).isSome = true

theorem at?_cons (n : Node Source Value) (name : String) (path : List String) :
    n.at? (name :: path) = (n.child? name).bind fun c => c.at? path := rfl

theorem at?_cons_of_child? {n c : Node Source Value} {name : String} (h : n.child? name = some c)
    (path : List String) : n.at? (name :: path) = c.at? path := by
  rw [at?_cons, h, Option.bind_some]

theorem at?_append {t n : Node Source Value} {above : List String} (hat : t.at? above = some n)
    (below : List String) : t.at? (above ++ below) = n.at? below := by
  induction above generalizing t with
  | nil =>
      obtain rfl := Option.some.inj hat
      rfl
  | cons name above ih =>
      obtain ⟨c, hc, hat⟩ := Option.bind_eq_some_iff.mp hat
      rw [List.cons_append, at?_cons_of_child? hc, ih hat]

/-- With distinct names, a path goes on below the one child that has its first name. -/
theorem NamesDistinct.at?_cons_eq_some_iff {n m : Node Source Value} (h : n.NamesDistinct)
    {name : String} {path : List String} :
    n.at? (name :: path) = some m ↔ ∃ c ∈ n.children, c.name = name ∧ c.at? path = some m := by
  rw [at?_cons, Option.bind_eq_some_iff]
  simp only [h.child?_eq_some_iff, and_assoc]

@[simp]
theorem atAsChild?_cons_name (c : Node Source Value) (path : List String) :
    c.atAsChild? (c.name :: path) = c.at? path := by
  rw [atAsChild?, if_pos rfl]

theorem atAsChild?_of_child? {n c : Node Source Value} {name : String} (h : n.child? name = some c)
    (path : List String) : c.atAsChild? (name :: path) = n.at? (name :: path) := by
  rw [at?_cons_of_child? h, atAsChild?, if_pos (name_eq_of_child? h)]

/-- A path into the new child is overridden at its first step by a literal parent, and otherwise
below a child that the parent has already. -/
theorem overridden_cons_iff {parent c : Node Source Value} {path : List String} :
    Overridden parent c (c.name :: path) ↔ parent.isLiteral = true
      ∨ ∃ old g name rest, path = name :: rest ∧ parent.child? c.name = some old
        ∧ c.child? name = some g ∧ Overridden old g path := by
  constructor
  · rintro ⟨above, name, below, hpath, ⟨n, hat, hliteral⟩, hnew⟩
    cases above with
    | nil =>
        left
        rw [at?] at hat
        exact Option.some.inj hat ▸ hliteral
    | cons first above =>
        right
        obtain ⟨rfl, rfl⟩ := List.cons.inj hpath
        rw [at?_cons, Option.bind_eq_some_iff] at hat
        obtain ⟨old, hold, hat⟩ := hat
        obtain ⟨name', rest, hrest, tail, htail⟩ : ∃ name' rest, above ++ name :: below = name' :: rest
            ∧ ∃ tail, above ++ [name] = name' :: tail := by
          cases above with
          | nil => exact ⟨name, below, rfl, [], rfl⟩
          | cons name' above => exact ⟨name', _, rfl, _, rfl⟩
        rw [List.cons_append, atAsChild?_cons_name, htail, at?_cons] at hnew
        obtain ⟨g, hg⟩ := Option.isSome_iff_exists.mp (Option.isSome_of_isSome_bind hnew)
        refine ⟨old, g, name', rest, hrest, hold, hg, above, name, below, rfl, ⟨n, hat, hliteral⟩, ?_⟩
        rw [htail, atAsChild?_of_child? hg, at?_cons]
        exact hnew
  · rintro (hliteral | ⟨old, g, name, rest, rfl, hold, hg, above, name', below, hpath,
      ⟨n, hat, hliteral⟩, hnew⟩)
    · exact ⟨[], c.name, path, rfl, ⟨parent, rfl, hliteral⟩, by simp [at?]⟩
    · refine ⟨c.name :: above, name', below, by rw [hpath]; rfl, ⟨n, ?_, hliteral⟩, ?_⟩
      · rw [at?_cons_of_child? hold, hat]
      · rw [List.cons_append, atAsChild?_cons_name]
        cases above with
        | nil =>
            obtain ⟨rfl, rfl⟩ := List.cons.inj hpath
            rwa [List.nil_append, ← atAsChild?_of_child? hg]
        | cons first above =>
            obtain ⟨rfl, -⟩ := List.cons.inj hpath
            rwa [List.cons_append, ← atAsChild?_of_child? hg]

/-- Below a child that is kept, the question is the same one level further down. -/
theorem overridden_cons_cons_iff {parent c old : Node Source Value} {name : String}
    {path : List String} (hkind : parent.isLiteral = false)
    (hold : parent.child? c.name = some old) :
    Overridden parent c (c.name :: name :: path)
      ↔ ∃ g, c.child? name = some g ∧ Overridden old g (name :: path) := by
  rw [overridden_cons_iff]
  constructor
  · rintro (hliteral | ⟨old', g, name', rest, hpath, hold', hg, hover⟩)
    · rw [hkind] at hliteral
      cases hliteral
    · obtain ⟨rfl, rfl⟩ := List.cons.inj hpath
      rw [hold, Option.some.injEq] at hold'
      subst hold'
      exact ⟨g, hg, hover⟩
  · rintro ⟨g, hg, hover⟩
    exact .inr ⟨old, g, name, path, rfl, hold, hg, hover⟩

theorem at?_addTo_cons_name (parent c : Node Source Value) (path : List String) :
    (c.addTo parent).at? (c.name :: path) = (parent.joined c).at? path := by
  rw [at?_cons, child?_addTo, if_pos rfl, Option.bind_some]

/-- Below the name of the new child: what is overridden is the new tree, and elsewhere the old
header goes before the new one. -/
theorem at?_addTo_cons_name_spec {c : Node Source Value} (hc : c.NamesDistinct)
    (parent : Node Source Value) (path : List String) :
    (Overridden parent c (c.name :: path) →
        (c.addTo parent).at? (c.name :: path) = c.at? path)
      ∧ (¬ Overridden parent c (c.name :: path) →
        ((c.addTo parent).at? (c.name :: path)).map header
          = ((parent.at? (c.name :: path)).map header).or ((c.at? path).map header)) := by
  rw [at?_addTo_cons_name]
  cases hold : parent.child? c.name with
  | none =>
      rw [joined_of_child?_eq_none hold, at?_cons, hold]
      exact ⟨fun _ => rfl, fun _ => rfl⟩
  | some old =>
      cases hkind : parent.isLiteral with
      | true =>
          rw [joined_of_isLiteral c hkind]
          exact ⟨fun _ => rfl, fun hnot => absurd (overridden_cons_iff.mpr (.inl hkind)) hnot⟩
      | false =>
          rw [joined_of_isLiteral_eq_false hkind hold, at?_cons_of_child? hold]
          cases path with
          | nil =>
              refine ⟨fun hover => ?_, fun _ => by simp [at?]⟩
              rcases overridden_cons_iff.mp hover with hliteral | ⟨_, _, _, _, hnil, _⟩
              · rw [hkind] at hliteral
                cases hliteral
              · cases hnil
          | cons name path =>
              rw [overridden_cons_cons_iff hkind hold, at?_cons]
              have hchild : (addAllTo c.children old).child? name
                  = ((c.child? name).map old.joined).or (old.child? name) :=
                child?_addAllTo hc.nodup old name
              rw [hchild]
              cases hg : c.child? name with
              | none =>
                  constructor
                  · rintro ⟨g, hsome, _⟩
                    cases hsome
                  · intro _
                    rw [at?_cons c, hg]
                    simp [at?_cons]
              | some g =>
                  obtain rfl := name_eq_of_child? hg
                  have ih := at?_addTo_cons_name_spec (hc.of_mem (mem_children_of_child? hg)) old path
                  rw [at?_addTo_cons_name] at ih
                  rw [at?_cons_of_child? hg]
                  simpa using ih

/-- Along a path that starts with another name nothing changes. -/
theorem at?_addTo_of_ne {parent c : Node Source Value} {name : String} (hne : c.name ≠ name)
    (path : List String) : (c.addTo parent).at? (name :: path) = parent.at? (name :: path) := by
  rw [at?_cons, child?_addTo, if_neg hne, at?_cons]

/-- **Adding a child, path by path.** The root keeps its header, and only paths that start with the
name of the child are touched. Such a path ends at the node of the new tree where it is overridden;
elsewhere the node has the old header if there was one, and the header of the new tree if not. -/
theorem at?_addChild {c : Node Source Value} (hc : c.NamesDistinct) (parent : Node Source Value) :
    (parent.addChild c).header = parent.header
      ∧ ∀ path, path ≠ [] →
        (path.head? ≠ some c.name → (parent.addChild c).at? path = parent.at? path)
        ∧ (path.head? = some c.name →
          (Overridden parent c path → (parent.addChild c).at? path = c.atAsChild? path)
          ∧ (¬ Overridden parent c path →
            ((parent.addChild c).at? path).map header
              = ((parent.at? path).map header).or ((c.atAsChild? path).map header))) := by
  refine ⟨header_addTo c parent, fun path hpath => ?_⟩
  cases path with
  | nil => exact absurd rfl hpath
  | cons name path =>
      refine ⟨fun hhead => at?_addTo_of_ne (fun heq => hhead (congrArg some heq.symm)) path, ?_⟩
      intro hhead
      obtain rfl := Option.some.inj hhead
      rw [atAsChild?_cons_name]
      exact at?_addTo_cons_name_spec hc parent path

/-- An argument over a keyword `x` over a keyword `g`. -/
def argumentOverKeywords : Node Unit ArgumentValue :=
  ⟨.argument "target" Parser.word,
    [⟨.literal "x" true, [⟨.literal "g" true, [⟨.literal "old" true, []⟩]⟩]⟩]⟩

/-- The same two keywords over another one. -/
def keywordsToAdd : Node Unit ArgumentValue :=
  ⟨.literal "x" true, [⟨.literal "g" true, [⟨.literal "new" true, []⟩]⟩]⟩

theorem namesDistinct_keywordsToAdd : keywordsToAdd.NamesDistinct := by
  refine .node (by decide) fun c hc => ?_
  obtain rfl := List.mem_singleton.mp hc
  refine .node (by decide) fun c hc => ?_
  obtain rfl := List.mem_singleton.mp hc
  exact namesDistinct_leaf _

/-- The argument keeps `x`, and `x` takes the new `g` in place of the old one. -/
theorem at?_addChild_keywordsToAdd :
    keywordsToAdd.NamesDistinct
      ∧ (argumentOverKeywords.addChild keywordsToAdd).at? ["x", "g", "new"]
        = some ⟨.literal "new" true, []⟩
      ∧ (argumentOverKeywords.addChild keywordsToAdd).at? ["x", "g", "old"] = none := by
  have hspec := (at?_addChild namesDistinct_keywordsToAdd argumentOverKeywords).2
  have hover : ∀ leaf, Overridden argumentOverKeywords keywordsToAdd ["x", "g", leaf] := fun leaf =>
    ⟨["x"], "g", [leaf], rfl, ⟨_, rfl, rfl⟩, rfl⟩
  refine ⟨namesDistinct_keywordsToAdd, ?_, ?_⟩
  · exact ((hspec ["x", "g", "new"] (by simp)).2 rfl).1 (hover "new")
  · exact ((hspec ["x", "g", "old"] (by simp)).2 rfl).1 (hover "old")

end CommandGrammar.Node
