import CommandGrammar.Proofs.Tree.Enumeration
import CommandGrammar.Proofs.Tree.Everywhere

/-!
# One list of names in hand

A walk in search of a fault has one list of names for the whole tree: it adds the name of a node on
its way down and drops it once all below the node has been looked at. Where a fault stops it, the
names stay as they are. It finds what the search finds that hands the names down as a value.
-/

namespace CommandGrammar

/-- The names that the place of the fault is told by. -/
def TreeFault.names : TreeFault → List String
  | emptyName parent => parent
  | unreadableLiteral path => path
  | deadEnd path => path

/-- What the walk has in hand: names, and the fault that has stopped it. -/
structure FaultWalk where
  names : List String
  fault : Option TreeFault

namespace FaultWalk

def enter (w : FaultWalk) (name : String) : FaultWalk := { w with names := w.names ++ [name] }

def leave (w : FaultWalk) : FaultWalk := { w with names := w.names.dropLast }

def stop (w : FaultWalk) (fault : List String → TreeFault) : FaultWalk :=
  { w with fault := some (fault w.names) }

/-- Goes on, unless a fault has stopped the walk. -/
def andThen (w : FaultWalk) (step : FaultWalk → FaultWalk) : FaultWalk :=
  match w.fault with
  | some _ => w
  | none => step w

/-- The end of a walk that had the names in hand when it came to a tree with the given fault. -/
def ended (names : List String) : Option TreeFault → FaultWalk
  | some fault => ⟨fault.names, some fault⟩
  | none => ⟨names, none⟩

theorem fault_ended (names : List String) (fault : Option TreeFault) :
    (ended names fault).fault = fault := by
  cases fault <;> rfl

end FaultWalk

namespace Node

variable {Source Value : Type}

mutual

def faultWalk : Node Source Value → FaultWalk → FaultWalk
  | ⟨h, children⟩, w =>
    if Text.trim h.name.toList = [] then w.stop .emptyName
    else
      let entered := w.enter h.name
      if h.kind.isLiteral && !h.name.toList.all Reader.isWordChar then
        entered.stop .unreadableLiteral
      else if children.isEmpty && !h.executor.isSome then entered.stop .deadEnd
      else
        ((Text.sortByKey Prod.fst (faultWalks children)).foldl (fun w c => w.andThen c.2)
          entered).andThen .leave

/-- The walk of each node, with the name of the node. -/
def faultWalks : List (Node Source Value) → List (String × (FaultWalk → FaultWalk))
  | [] => []
  | c :: children => (c.name, fun w => c.faultWalk w) :: faultWalks children

end

theorem faultWalks_eq_map (cs : List (Node Source Value)) :
    faultWalks cs = cs.map fun c => (c.name, c.faultWalk) := by
  induction cs with
  | nil => rfl
  | cons c cs ih => rw [faultWalks, ih, List.map_cons]

/-- Nothing is done any more once the walk has stopped. -/
theorem foldl_andThen_of_stopped {w : FaultWalk} {fault : TreeFault} (hw : w.fault = some fault)
    (cs : List (Node Source Value)) :
    cs.foldl (fun w c => FaultWalk.andThen w c.faultWalk) w = w := by
  induction cs with
  | nil => rfl
  | cons c cs ih => rw [List.foldl_cons, FaultWalk.andThen, hw, ih]

/-- Nodes whose walks are known are walked through until one has a fault. -/
theorem foldl_andThen {cs : List (Node Source Value)} {names : List String}
    (hcs : ∀ c ∈ cs, c.faultWalk ⟨names, none⟩ = .ended names (c.faultBelow? names)) :
    cs.foldl (fun w c => FaultWalk.andThen w c.faultWalk) ⟨names, none⟩
      = .ended names (cs.findSome? fun c => c.faultBelow? names) := by
  induction cs with
  | nil => rfl
  | cons c cs ih =>
      obtain ⟨hc, hcs⟩ := List.forall_mem_cons.mp hcs
      rw [List.foldl_cons, List.findSome?_cons]
      have hfirst : FaultWalk.andThen ⟨names, none⟩ c.faultWalk
          = .ended names (c.faultBelow? names) := hc
      rw [hfirst]
      cases c.faultBelow? names with
      | none => exact ih hcs
      | some fault => exact foldl_andThen_of_stopped rfl cs

/-- The fault of a node, then that of the first child by name that has one. -/
theorem faultBelow?_eq (h : NodeHeader Source Value) (children : List (Node Source Value))
    (above : List String) :
    faultBelow? above ⟨h, children⟩ = (ownFault? above ⟨h, children⟩).or
      ((Text.sortByKey name children).findSome? fun c => c.faultBelow? (above ++ [h.name])) := by
  rw [faultBelow?, faultsBelow_eq_map, Text.sortByKey_map, List.findSome?_map]
  cases ownFault? above ⟨h, children⟩ with
  | none => rfl
  | some fault => rfl

/-- The walk finds the first fault. Without one it ends with the names that it started with, and
otherwise with those that lead to the fault. -/
theorem faultWalk_eq (n : Node Source Value) (names : List String) :
    n.faultWalk ⟨names, none⟩ = .ended names (n.faultBelow? names) := by
  induction n using inductionOnChildren generalizing names with
  | node h children ih =>
      have hbelow : (Text.sortByKey Prod.fst (faultWalks children)).foldl
          (fun w c => FaultWalk.andThen w c.2) ⟨names ++ [h.name], none⟩
            = .ended (names ++ [h.name])
              ((Text.sortByKey name children).findSome? fun c =>
                c.faultBelow? (names ++ [h.name])) := by
        rw [faultWalks_eq_map, Text.sortByKey_map, List.foldl_map]
        refine foldl_andThen fun c hc => ih c ?_ _
        exact (Text.sortByKey_perm name children).mem_iff.mp hc
      rw [faultBelow?_eq, faultWalk]
      by_cases hblank : Text.trim h.name.toList = []
      · have hown : ownFault? names ⟨h, children⟩ = some (.emptyName names) := if_pos hblank
        rw [if_pos hblank, hown]
        rfl
      rw [if_neg hblank]
      by_cases hspell : (h.kind.isLiteral && !h.name.toList.all Reader.isWordChar) = true
      · have hown : ownFault? names ⟨h, children⟩ = some (.unreadableLiteral (names ++ [h.name])) :=
          (if_neg hblank).trans (if_pos hspell)
        rw [if_pos hspell, hown]
        rfl
      rw [if_neg hspell]
      by_cases hend : (children.isEmpty && !h.executor.isSome) = true
      · have hown : ownFault? names ⟨h, children⟩ = some (.deadEnd (names ++ [h.name])) :=
          (if_neg hblank).trans ((if_neg hspell).trans (if_pos hend))
        rw [if_pos hend, hown]
        rfl
      -- nothing is wrong with the node itself, so its name is dropped unless a child stops the walk
      have hown : ownFault? names ⟨h, children⟩ = none :=
        (if_neg hblank).trans ((if_neg hspell).trans (if_neg hend))
      rw [if_neg hend, hown, Option.none_or, FaultWalk.enter, hbelow]
      cases (Text.sortByKey name children).findSome? fun c => c.faultBelow? (names ++ [h.name]) with
      | some fault => rfl
      | none => simp [FaultWalk.ended, FaultWalk.andThen, FaultWalk.leave]

end Node

end CommandGrammar
