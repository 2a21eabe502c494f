import BlockWalk.Node
import Mathlib

/-!
# Maps in order

A list of entries need not be in order, and can have one key twice. What is put together from it is
in order, and has a part of the entries: those of one key that is there twice are lost, but for the
last. So the node that is put together from nodes out of order is no larger than they are.

* `Fields.ofList_subperm` — what is put together is a part of what it is put together from.
* `Node.ordered` — a node whose maps are put together from the entries of another, at any depth.
* `Node.sorted_ordered` and `Node.ordered_of_sorted` — it is in order, and the same if the other is.
* `Node.maps` — all maps inside a node.
-/

namespace BlockWalk

namespace Fields

variable {α : Type}

theorem insert_subperm (k : String) (a : α) (φ : Fields α) :
    (φ.insert k a).Subperm ((k, a) :: φ) := by
  induction φ with
  | nil => exact .refl _
  | cons e φ ih =>
    unfold insert
    split
    · exact .refl _
    · split
      · exact (List.subperm_cons _).2 (List.sublist_cons_self e φ).subperm
      · exact ((List.subperm_cons e).2 ih).trans (List.Perm.swap (k, a) e φ).subperm

/-- **What is put together from a list has a part of its members.** -/
theorem ofList_subperm (l : List (String × α)) : (ofList l).Subperm l := by
  have put (l before : List (String × α)) :
      (l.foldl (fun φ e => insert e.1 e.2 φ) before).Subperm (before ++ l) := by
    induction l generalizing before with
    | nil => rw [List.append_nil]; exact .refl _
    | cons e l ih =>
      have moved : (e :: before ++ l).Perm (before ++ e :: l) := List.perm_middle.symm
      exact (ih _).trans (((insert_subperm e.1 e.2 before).append (.refl l)).trans moved.subperm)
  exact put l []

theorem sorted_ofList (l : List (String × α)) : Sorted (ofList l) := by
  have put (l before : List (String × α)) (h : Sorted before) :
      Sorted (l.foldl (fun φ e => insert e.1 e.2 φ) before) := by
    induction l generalizing before with
    | nil => exact h
    | cons e l ih => exact ih _ (h.insert e.1 e.2)
  exact put l [] .nil

end Fields

/-- Parts of a list add up to no more than the list. -/
theorem sum_map_le_of_subperm {α : Type} {l l' : List α} (h : l.Subperm l') (f : α → Nat) :
    (l.map f).sum ≤ (l'.map f).sum := by
  obtain ⟨m, perm, sub⟩ := h
  calc (l.map f).sum = (m.map f).sum := ((perm.map f).sum_eq).symm
    _ ≤ (l'.map f).sum := (sub.map f).sum_le_sum fun _ _ => Nat.zero_le _

namespace Node

/-- The node in which every map is put together from the entries of a map of `v`. -/
def ordered : Node → Node
  | .list items => .list (items.map fun v => ordered v)
  | .map entries => .map (Fields.ofList (entries.map fun e => (e.1, ordered e.2)))
  | v => v
decreasing_by
  · decreasing_tactic
  · have := Fields.sizeOf_value_lt ‹_›
    simp only [Node.map.sizeOf_spec]
    omega

/-- The maps inside a node, each with its entries as they are listed. -/
def maps : Node → List (Fields Node)
  | .list items => items.flatMap fun v => maps v
  | .map entries => entries :: entries.flatMap fun e => maps e.2
  | _ => []
decreasing_by
  · decreasing_tactic
  · have := Fields.sizeOf_value_lt ‹_›
    simp only [Node.map.sizeOf_spec]
    omega

/-- What holds no others stays as it is. -/
theorem ordered_leaf {v : Node} (noItems : v.asItems? = none) (noEntries : v.asEntries? = none) :
    v.ordered = v := by
  cases v with
  | list items => cases noItems
  | map entries => cases noEntries
  | _ => rw [ordered.eq_def]

/-- An entry of the map that is put together is made of one that is listed. -/
theorem exists_of_mem_ofList {entries : List (String × Node)} {e : String × Node}
    (h : e ∈ Fields.ofList (entries.map fun e => (e.1, ordered e.2))) :
    ∃ f ∈ entries, (f.1, f.2.ordered) = e :=
  List.mem_map.1 ((Fields.ofList_subperm _).subset h)

/-- **What is put together is in order.** -/
theorem sorted_ordered (v : Node) : v.ordered.Sorted := by
  induction v using Node.ind with
  | list items ih =>
    rw [ordered]
    exact .list (List.forall_mem_map.2 ih)
  | map entries ih =>
    rw [ordered]
    refine .map (Fields.sorted_ofList _) fun e he => ?_
    obtain ⟨f, hf, rfl⟩ := exists_of_mem_ofList he
    exact ih f hf
  | _ =>
    rw [ordered_leaf rfl rfl]
    constructor

/-- What is in order is put together from itself. -/
theorem ordered_of_sorted {v : Node} (h : v.Sorted) : v.ordered = v := by
  induction v using Node.ind with
  | list items ih =>
    cases h with
    | list h => rw [ordered, List.map_congr_left fun v hv => ih v hv (h v hv), List.map_id']
  | map entries ih =>
    cases h with
    | map inOrder h =>
      have same : (entries.map fun e => (e.1, ordered e.2)) = entries := by
        conv_rhs => rw [← List.map_id' entries]
        exact List.map_congr_left fun e he => by rw [ih e he (h e he)]
      rw [ordered, same, Fields.ofList_of_sorted inOrder]
  | _ => exact ordered_leaf rfl rfl

/-- Only a node that holds no others becomes one. -/
theorem eq_of_ordered_leaf {v w : Node} (noItems : v.asItems? = none)
    (noEntries : v.asEntries? = none) (h : w.ordered = v) : w = v := by
  cases w with
  | list items =>
    rw [ordered] at h
    subst h
    cases noItems
  | map entries =>
    rw [ordered] at h
    subst h
    cases noEntries
  | _ => rwa [ordered.eq_def] at h

/-- Only a list becomes a list. -/
theorem exists_list_of_ordered {w : Node} {l : List Node} (h : w.ordered = .list l) :
    ∃ items, w = .list items := by
  cases w with
  | list items => exact ⟨items, rfl⟩
  | _ => rw [ordered.eq_def] at h; cases h

/-- Only a map becomes a map. -/
theorem exists_map_of_ordered {w : Node} {l : List (String × Node)} (h : w.ordered = .map l) :
    ∃ entries, w = .map entries := by
  cases w with
  | map entries => exact ⟨entries, rfl⟩
  | _ => rw [ordered.eq_def] at h; cases h

/-- A node is in order if all maps inside it are. -/
theorem sorted_iff_maps {v : Node} : v.Sorted ↔ ∀ entries ∈ v.maps, Fields.Sorted entries := by
  induction v using Node.ind with
  | list items ih =>
    rw [maps, List.forall_mem_flatMap]
    constructor
    · intro h
      cases h with
      | list h => exact fun v hv => (ih v hv).1 (h v hv)
    · exact fun h => .list fun v hv => (ih v hv).2 (h v hv)
  | map entries ih =>
    rw [maps, List.forall_mem_cons, List.forall_mem_flatMap]
    constructor
    · intro h
      cases h with
      | map inOrder h => exact ⟨inOrder, fun e he => (ih e he).1 (h e he)⟩
    · exact fun ⟨inOrder, h⟩ => .map inOrder fun e he => (ih e he).2 (h e he)
  | _ =>
    rw [maps.eq_def]
    refine iff_of_true (by constructor) ?_
    exact fun _ h => absurd h List.not_mem_nil

end Node

end BlockWalk
