import BlockWalk.Proofs.LinkGraph

/-!
# Block boundaries

A walk does not tell a link from the node that it leads to. Take a block from which everything that
can be reached is there, and put in the place of every link the root of its block, of which the same
was done before (`Inlines`): a program ends at the node that this gives as it ends at the blocks,
with the same instructions left over.

* `Pick.children_inline` — a pick selects the same children before and after.
* `agree_of_acc` — an evaluation at an inlined node does nothing with the store and leaves over what
  the evaluation at the node itself does, whatever the store gives out there.
* `Traversal.boundaries_transparent` — the two traversals end alike, and the second gives its root
  only.
-/

namespace BlockWalk

/-! ## Replacing links -/

namespace Node

/-- The node with every link inside it replaced by the node that `g` has for it. -/
def inline (g : Cid → Node) : Node → Node
  | link χ => g χ
  | list items => list (items.map (inline g))
  | map entries => map (entries.map fun e => (e.1, inline g e.2))
  | v => v
decreasing_by
  · decreasing_tactic
  · have := Fields.sizeOf_value_lt ‹_›
    simp only [Node.map.sizeOf_spec]
    omega

/-- Only the links inside a node matter. -/
theorem inline_congr {g h : Cid → Node} (v : Node) (hv : ∀ χ ∈ v.links, g χ = h χ) :
    v.inline g = v.inline h := by
  induction v using Node.ind with
  | link χ =>
    rw [inline, inline]
    exact hv χ (by simp [links])
  | list items ih =>
    rw [inline, inline]
    refine congrArg list (List.map_congr_left fun w hw => ih w hw fun χ hχ => hv χ ?_)
    rw [links]
    exact List.mem_flatten.2 ⟨_, List.mem_map_of_mem hw, hχ⟩
  | map entries ih =>
    rw [inline, inline]
    refine congrArg map (List.map_congr_left fun e he => ?_)
    refine congrArg (Prod.mk e.1) (ih e he fun χ hχ => hv χ ?_)
    rw [links]
    exact List.mem_flatten.2 ⟨_, List.mem_map_of_mem (f := fun e => e.2.links) he, hχ⟩
  | _ => rw [inline, inline] <;> simp

/-- What is no link does not become one. -/
theorem asLink?_inline (g : Cid → Node) {v : Node} (plain : v.asLink? = none) :
    (v.inline g).asLink? = none := by
  cases v with
  | link χ => cases plain
  | _ => rw [inline] <;> simp [asLink?]

theorem get?_inline (g : Cid → Node) {v : Node} (plain : v.asLink? = none) (key : String) :
    (v.inline g).get? key = (v.get? key).map (inline g) := by
  cases v with
  | link χ => cases plain
  | map entries =>
    simp only [inline, get?, asEntries?, Option.bind_eq_bind, Option.bind_some, Fields.find?,
      List.find?_map, Option.map_map]
    rfl
  | _ => rw [inline] <;> simp [get?, asEntries?]

theorem items_inline (g : Cid → Node) {v : Node} (plain : v.asLink? = none) :
    (v.inline g).items = v.items.map (inline g) := by
  cases v with
  | link χ => cases plain
  | list l => simp [inline, items, asItems?]
  | _ => rw [inline] <;> simp [items, asItems?]

theorem at?_eq_getElem? (v : Node) (place : Nat) : v.at? place = v.items[place]? := by
  cases v <;> simp [at?, items, asItems?]

end Node

/-- **A pick selects the inlined children of an inlined node.** -/
theorem Pick.children_inline (g : Cid → Node) (p : Pick) {v : Node} (plain : v.asLink? = none) :
    p.children (v.inline g) = (p.children v).map (Node.inline g) := by
  cases p with
  | field key =>
    rw [children, children, Node.get?_inline g plain]
    cases v.get? key <;> rfl
  | all => exact Node.items_inline g plain
  | position place =>
    rw [children, children, Node.at?_eq_getElem?, Node.at?_eq_getElem?, Node.items_inline g plain,
      List.getElem?_map]
    cases v.items[place.toNat]? <;> rfl
  | slice start stop =>
    cases stop with
    | none => simp only [children, Node.items_inline g plain, List.map_drop]
    | some stop => simp only [children, Node.items_inline g plain, List.map_drop, List.map_take]

/-- The plan with links replaced in the node that its pass began at. -/
def Plan.inline (g : Cid → Node) : Plan → Plan
  | top program => top program
  | pass picks r passes after start => pass picks r passes after (start.map (Node.inline g))

/-- The node that the pass of a plan began at. -/
def Plan.start? : Plan → Option Node
  | top _ => none
  | pass _ _ _ _ start => start

/-! ## Inlined blocks -/

section

open Traversal

variable (codecs : Registry) (f : BlockReader Id) (root : Cid)

/-- `g` has for every block that can be reached the root of the block, with its links replaced. -/
def Inlines (g : Cid → Node) : Prop :=
  ∀ χ v, Reaches codecs f root χ → RootOf codecs f χ v → g χ = v.inline g

/-- `T` is the root of the first block, with every link replaced by what it leads to. -/
def InlinedRoot (T : Node) : Prop := ∃ g, Inlines codecs f root g ∧ g root = T

/-- The root of a block; a node without value if it cannot be had. -/
def rootNode (χ : Cid) : Node :=
  match f χ with
  | .ok (some b) => (codecs.decode b).toOption.getD .null
  | _ => .null

/-- The roots of blocks with their links replaced, as far as these lead to a lower rank. -/
def inlining (rank : Cid → Nat) (χ : Cid) : Node :=
  (rootNode codecs f χ).inline fun ψ => if rank ψ < rank χ then inlining rank ψ else .null
termination_by rank χ

variable {codecs f root}

theorem rootNode_eq {χ : Cid} {v : Node} (h : RootOf codecs f χ v) : rootNode codecs f χ = v := by
  obtain ⟨b, hb, hv⟩ := h
  rw [rootNode, hb]
  dsimp only
  rw [hv]
  rfl

/-- Blocks that lead in no circle can be inlined, in one way. -/
theorem Intact.existsUnique_inlinedRoot (h : Intact codecs f root) :
    ∃! T, InlinedRoot codecs f root T := by
  obtain ⟨rank, hrank⟩ := h.exists_rank
  have inlines : Inlines codecs f root (inlining codecs f rank) := by
    intro χ v hχ hv
    rw [inlining, rootNode_eq hv]
    exact Node.inline_congr v fun ψ hψ => if_pos (hrank χ v hχ hv ψ hψ)
  refine ⟨_, ⟨_, inlines, rfl⟩, ?_⟩
  rintro T ⟨g, hg, rfl⟩
  -- what two ways have for a block is the same, if it is for all blocks of a lower rank
  suffices same : ∀ n χ, rank χ = n → Reaches codecs f root χ →
      g χ = inlining codecs f rank χ from same _ root rfl .refl
  intro n
  induction n using Nat.strongRecOn with
  | ind n ih =>
    rintro χ rfl hχ
    obtain ⟨v, hv⟩ := h.present χ hχ
    rw [hg χ v hχ hv, inlines χ v hχ hv]
    exact Node.inline_congr v fun ψ hψ =>
      ih _ (hrank χ v hχ hv ψ hψ) ψ rfl (hχ.link hv hψ)

end

/-! ## Evaluations that agree -/

section

open Traversal Behaviour

variable {S S' : Type} (read : BlockReader (StateM S)) (codecs : Registry) (f : BlockReader Id)
  (read' : BlockReader (StateM S')) (codecs' : Registry)

/-- Over a store that answers as `f`, the first errand ends without an error, with the instructions
left over that the second leaves; and the second does nothing else, over whatever store. -/
def Agree (e e' : Errand) : Prop :=
  ∃ left, Evaluates read' codecs' e' = done left
    ∧ ∀ s, read.Answers s f →
      ∃ B s', Evaluates read codecs e s B (.ok left) s' ∧ read.Answers s' f

variable {read codecs f read' codecs'}

/-- Errands that do nothing agree. -/
theorem Agree.of_done {e e' : Errand} {left : List Selector}
    (he : Evaluates read codecs e = done left) (he' : Evaluates read' codecs' e' = done left) :
    Agree read codecs f read' codecs' e e' := by
  refine ⟨left, he', fun s hs => ⟨[], s, ?_, hs⟩⟩
  rw [he]
  exact done_self left s

/-- Errands agree if those do that they come down to. -/
theorem Agree.of_eq {e e' d d' : Errand} (h : Agree read codecs f read' codecs' d d')
    (he : Evaluates read codecs e = Evaluates read codecs d)
    (he' : Evaluates read' codecs' e' = Evaluates read' codecs' d') :
    Agree read codecs f read' codecs' e e' := by
  obtain ⟨left, hd', hd⟩ := h
  refine ⟨left, he'.trans hd', fun s hs => ?_⟩
  rw [he]
  exact hd s hs

/-- Children in turn agree if each of them does: what is left over is that of the last. -/
theorem Agree.inTurn {g : Node × Plan → Node × Plan} {cs : List (Node × Plan)}
    (h : ∀ c ∈ cs, Agree read codecs f read' codecs' (.child c.1 c.2) (.child (g c).1 (g c).2))
    (left : List Selector) :
    Agree read codecs f read' codecs' (.inTurn left cs) (.inTurn left (cs.map g)) := by
  induction cs generalizing left with
  | nil => exact .of_done evaluates_inTurn_nil evaluates_inTurn_nil
  | cons c cs ih =>
    obtain ⟨left₁, hc', hc⟩ := h c List.mem_cons_self
    obtain ⟨left₂, hcs', hcs⟩ := ih (fun d hd => h d (List.mem_cons_of_mem c hd)) left₁
    refine ⟨left₂, ?_, fun s hs => ?_⟩
    · rw [List.map_cons, evaluates_inTurn_cons, hc', done_then, hcs']
    · obtain ⟨B₁, s₁, he₁, hs₁⟩ := hc s hs
      obtain ⟨B₂, s₂, he₂, hs₂⟩ := hcs s₁ hs₁
      exact ⟨B₁ ++ B₂, s₂, .nextChild he₁ he₂, hs₂⟩

/-! ### Inlined nodes -/

variable (codecs f) in
/-- A node in a block that can be reached. -/
structure Inside (root : Cid) (v : Node) : Prop where
  /-- it is no link -/
  plain : v.asLink? = none
  /-- its links can be followed -/
  links : ∀ χ ∈ v.links, Reaches codecs f root χ

variable (codecs f) in
/-- The roots of the blocks that can be reached. -/
def Within (root χ : Cid) (v : Node) : Prop := Reaches codecs f root χ ∧ RootOf codecs f χ v

variable {root : Cid} {g : Cid → Node}

/-- The root of a block that can be reached is inside one. -/
theorem Intact.inside (h : Intact codecs f root) {χ : Cid} {v : Node}
    (hv : Within codecs f root χ v) : Inside codecs f root v :=
  ⟨h.plain χ v hv.1 hv.2, fun _ hψ => hv.1.link hv.2 hψ⟩

/-- The links of a child can be followed too. -/
theorem Inside.links_child {v c : Node} (hv : Inside codecs f root v) {p : Pick}
    (hc : c ∈ p.children v) : ∀ χ ∈ c.links, Reaches codecs f root χ := by
  obtain ⟨σ, hσ⟩ := p.exists_apply_of_mem_children hc
  exact fun χ hχ => hv.links χ (Node.links_subset_of_apply hσ hχ)

/-- Where an evaluation arrives at a child is inside a block that can be reached. -/
theorem Inside.arrives (h : Intact codecs f root) {v c w : Node} (hv : Inside codecs f root v)
    {p : Pick} (hc : c ∈ p.children v) (hw : Arrives (Within codecs f root) c w) :
    Inside codecs f root w := by
  cases hw with
  | inside plain => exact ⟨plain, hv.links_child hc⟩
  | opened given => exact h.inside given

/-- A block that can be reached is had. -/
theorem fetches_of_rootOf {χ : Cid} {v : Node} (hv : RootOf codecs f χ v) {s : S}
    (hs : read.Answers s f) :
    ∃ b s', Fetches read codecs χ s s' (.ok (b, v)) ∧ read.Answers s' f := by
  obtain ⟨b, hb, hd⟩ := hv
  exact ⟨b, _, .had (Prod.ext ((hs.answer χ).trans hb) rfl) hd, hs.next χ⟩

/-- A child agrees with the inlined child if the node does that it leads to. -/
theorem Agree.child (h : Intact codecs f root) (hg : Inlines codecs f root g) {c : Node}
    {plan plan' : Plan} (links : ∀ χ ∈ c.links, Reaches codecs f root χ)
    (hw : ∀ w, Arrives (Within codecs f root) c w →
      Agree read codecs f read' codecs' (.node w plan) (.node (w.inline g) plan')) :
    Agree read codecs f read' codecs' (.child c plan) (.child (c.inline g) plan') := by
  cases hc : c.asLink? with
  | none =>
    exact (hw c (.inside hc)).of_eq (evaluates_inside hc)
      (evaluates_inside (Node.asLink?_inline g hc))
  | some χ =>
    obtain rfl := Node.eq_link_of_asLink? hc
    have hχ : Reaches codecs f root χ := links χ (by simp [Node.links])
    obtain ⟨v, hv⟩ := h.present χ hχ
    obtain ⟨left, hv', he⟩ := hw v (.opened ⟨hχ, hv⟩)
    have inlined : (Node.link χ).inline g = v.inline g := by rw [Node.inline, hg χ v hχ hv]
    have plain := Node.asLink?_inline g (h.plain χ v hχ hv)
    refine ⟨left, ?_, fun s hs => ?_⟩
    · rw [inlined, evaluates_inside plain, hv']
    · obtain ⟨b, s₁, fetch, hs₁⟩ := fetches_of_rootOf hv hs
      obtain ⟨B, s', hB, hs'⟩ := he s₁ hs₁
      exact ⟨b :: B, s', .opened fetch hB, hs'⟩

theorem Plan.inline_forSiblings (g : Cid → Node) (plan : Plan) :
    (plan.inline g).forSiblings = plan.forSiblings.inline g := by
  cases plan <;> rfl

/-- The children of a match agree with the inlined ones if the nodes do that they lead to, as the
first child and as a later one. -/
theorem Agree.family (h : Intact codecs f root) (hg : Inlines codecs f root g) {v : Node}
    (hv : Inside codecs f root v) {p : Pick} {c : Node} {cs : List Node}
    (hc : p.children v = c :: cs) {plan : Plan}
    (hw : ∀ d ∈ p.children v, ∀ w, Arrives (Within codecs f root) d w →
      Agree read codecs f read' codecs' (.node w plan) (.node (w.inline g) (plan.inline g))
      ∧ Agree read codecs f read' codecs' (.node w plan.forSiblings)
          (.node (w.inline g) (plan.forSiblings.inline g))) :
    Agree read codecs f read' codecs' (.inTurn [] (plan.family c cs))
      (.inTurn [] ((plan.inline g).family (c.inline g) (cs.map (Node.inline g)))) := by
  have family : (plan.inline g).family (c.inline g) (cs.map (Node.inline g))
      = (plan.family c cs).map fun x => (x.1.inline g, x.2.inline g) := by
    simp only [Plan.family, List.map_cons, List.map_map, Plan.inline_forSiblings]
    rfl
  rw [family]
  refine inTurn (fun x hx => ?_) []
  rcases List.mem_cons.1 hx with rfl | hx
  · have hc : c ∈ p.children v := hc ▸ List.mem_cons_self
    exact child h hg (hv.links_child hc) fun w hw' => (hw c hc w hw').1
  · obtain ⟨d, hd, rfl⟩ := List.mem_map.1 hx
    have hd : d ∈ p.children v := hc ▸ List.mem_cons_of_mem c hd
    exact child h hg (hv.links_child hd) fun w hw' => (hw d hd w hw').2

/-- **An evaluation agrees with that at the inlined node**, where no plan can follow another for
ever. -/
theorem agree_of_acc (h : Intact codecs f root) (hg : Inlines codecs f root g)
    {x : Node × Plan} (hx : Acc (Follows (Within codecs f root)) x)
    (hv : Inside codecs f root x.1) (hs : ∀ u ∈ x.2.start?, Inside codecs f root u) :
    Agree read codecs f read' codecs' (.node x.1 x.2)
      (.node (x.1.inline g) (x.2.inline g)) := by
  induction hx with
  | intro x _ ih =>
    obtain ⟨v, plan⟩ := x
    match plan with
    | .top [] => exact .of_done evaluates_top_nil evaluates_top_nil
    | .top (.recursive r :: after) =>
      by_cases hl : r.limit = some 0
      · exact .of_done (evaluates_noPass hl) (evaluates_noPass hl)
      · refine (ih _ (.firstPass hl) hv ?_).of_eq (evaluates_firstPass hl) (evaluates_firstPass hl)
        exact fun u hu => Option.some.inj hu ▸ hv
    | .top (.pick p :: after) =>
      have inlined := p.children_inline g hv.plain
      cases hc : p.children v with
      | nil =>
        rw [hc] at inlined
        exact .of_done (evaluates_mismatch hc) (evaluates_mismatch inlined)
      | cons c cs =>
        rw [hc] at inlined
        refine (Agree.family h hg hv hc fun d hd w hw => ?_).of_eq (evaluates_matching hc)
          (evaluates_matching inlined)
        have := ih _ (.child hd hw) (hv.arrives h hd hw) nofun
        exact ⟨this, this⟩
    | .pass [] r passes after start =>
      by_cases hp : passes = some 1
      · subst hp
        exact (ih _ .lastPass hv nofun).of_eq evaluates_lastPass evaluates_lastPass
      · refine (ih _ (.nextPass hp) hv ?_).of_eq (evaluates_nextPass hp) (evaluates_nextPass hp)
        exact fun u hu => Option.some.inj hu ▸ hv
    | .pass (p :: picks) r passes after start =>
      have inlined := p.children_inline g hv.plain
      cases hc : p.children v with
      | nil =>
        rw [hc] at inlined
        cases start with
        | none => exact .of_done (evaluates_noStart hc) (evaluates_noStart inlined)
        | some u =>
          exact (ih _ .fallBack (hs u rfl) nofun).of_eq (evaluates_fallBack hc)
            (evaluates_fallBack inlined)
      | cons c cs =>
        rw [hc] at inlined
        refine (Agree.family h hg hv hc fun d hd w hw => ?_).of_eq (evaluates_matchingInPass hc)
          (evaluates_matchingInPass inlined)
        exact ⟨ih _ (.childInPass hd hw) (hv.arrives h hd hw) hs,
          ih _ (.childInPass hd hw) (hv.arrives h hd hw) nofun⟩

end

/-! ## Traversals -/

namespace Traversal

/-- Draining the traversal of a document over a store in the state `s` ends and gives `sel`. -/
def DrainsTo {S : Type} (read : BlockReader (StateM S)) (codecs : Registry) (d : Document) (s : S)
    (sel : Selection) : Prop :=
  ∃ pulls s', ((ofDocument d).drain read codecs pulls).run s = (some sel, s')

section

variable {S : Type} {read : BlockReader (StateM S)} {codecs : Registry} {d : Document} {s : S}
  {B : List Block} {o : Except TraversalError Resolution}

/-- Draining ends in one way at most. -/
theorem DrainsTo.unique {sel sel' : Selection} (h : DrainsTo read codecs d s sel)
    (h' : DrainsTo read codecs d s sel') : sel = sel' := by
  obtain ⟨n, s₁, h⟩ := h
  obtain ⟨n', s₂, h'⟩ := h'
  have early := run_drainFrom_of_le (Nat.le_max_left n n') h
  have late := run_drainFrom_of_le (Nat.le_max_right n n') h'
  exact Option.some.inj (Prod.mk.inj (early.symm.trans late)).1

/-- What draining gives is what the evaluation of the document gives. -/
theorem evaluates_of_drainsTo (h : DrainsTo read codecs d s ⟨B, o⟩) :
    ∃ o' s', Evaluates read codecs (.child (.link d.root) (.top d.program)) s B o' s'
      ∧ o = o'.map .ofRest := by
  obtain ⟨pulls, s', h⟩ := h
  obtain ⟨o', he, ho⟩ := selects_iff.1 (gives_ofDocument_iff.1 (drain_iff_gives.1 ⟨pulls, h⟩))
  exact ⟨o', s', he, ho⟩

/-- What the evaluation of the document gives is what draining gives. -/
theorem drainsTo_of_evaluates {o' : Except TraversalError (List Selector)} {s' : S}
    (h : Evaluates read codecs (.child (.link d.root) (.top d.program)) s B o' s')
    (ho : o = o'.map .ofRest) : DrainsTo read codecs d s ⟨B, o⟩ := by
  obtain ⟨pulls, h⟩ := drain_iff_gives.2 (gives_ofDocument_iff.2 (selects_iff.2 ⟨o', h, ho⟩))
  exact ⟨pulls, s', h⟩

end

/-- **Block boundaries are transparent.** Over a store that answers as a function, let all that can
be reached from a block be there, without circles and without blocks that are just links. Then
there is one node `T` that is the root of the block with every link replaced by what it leads to.
Every program ends at the block as it ends at any block that holds `T`, in any other store; and the
second traversal gives out that block only. -/
theorem boundaries_transparent {S : Type} {read : BlockReader (StateM S)} {s : S}
    {f : BlockReader Id} (answers : read.Answers s f) {codecs : Registry} {root : Cid}
    (intact : Intact codecs f root) :
    (∃! T, InlinedRoot codecs f root T)
      ∧ ∀ T, InlinedRoot codecs f root T →
        ∀ {S' : Type} (read' : BlockReader (StateM S')) (codecs' : Registry) (s' : S')
          (root' : Cid) (b' : Block), ((read' root').run s').1 = .ok (some b') →
          codecs'.decode b' = .ok T → ∀ program, ∃ B ρ,
            DrainsTo read codecs ⟨root, program⟩ s ⟨B, .ok ρ⟩
              ∧ DrainsTo read' codecs' ⟨root', program⟩ s' ⟨[b'], .ok ρ⟩ := by
  refine ⟨intact.existsUnique_inlinedRoot, ?_⟩
  rintro T ⟨g, hg, rfl⟩ S' read' codecs' s' root' b' hread' hdecode' program
  obtain ⟨v, hv⟩ := intact.present root .refl
  rw [hg root v .refl hv] at hdecode'
  obtain ⟨rank, hrank⟩ := intact.exists_rank
  have hwf : WellFounded (Follows (Within codecs f root)) :=
    follows_wf fun χ w hw ψ hψ => hrank χ w hw.1 hw.2 ψ hψ
  have agree : Agree read codecs f read' codecs' (.node v (.top program))
      (.node (v.inline g) (.top program)) :=
    agree_of_acc intact hg (hwf.apply (v, .top program)) (intact.inside ⟨.refl, hv⟩) nofun
  obtain ⟨left, hT, he⟩ := agree
  obtain ⟨b, s₁, fetch, hs₁⟩ := fetches_of_rootOf hv answers
  obtain ⟨B, s₂, hB, -⟩ := he s₁ hs₁
  let s₁' := ((read' root').run s').2
  have fetch' : Fetches read' codecs' root' s' s₁' (.ok (b', v.inline g)) :=
    .had (Prod.ext hread' rfl) hdecode'
  have hB' : Evaluates read' codecs' (.node (v.inline g) (.top program)) s₁' [] (.ok left) s₁' :=
    hT ▸ Behaviour.done_self left s₁'
  exact ⟨b :: B, .ofRest left, drainsTo_of_evaluates (.opened fetch hB) rfl,
    drainsTo_of_evaluates (.opened fetch' hB') rfl⟩

end Traversal

namespace OneLink

/-- The blocks of `memory` as a function. -/
def stored : BlockReader Id := fun χ => .ok (memory.get? χ)

/-- The roots in `memory`. -/
theorem rootOf_stored {χ : Cid} {v : Node} (h : Traversal.RootOf codecs stored χ v) :
    χ = outer.cid ∧ v = .list [.link inner.cid] ∨ χ ≠ outer.cid ∧ v = .null := by
  obtain ⟨b, hb, hv⟩ := h
  obtain rfl := BlockReader.labelled_memory memory χ b hb
  have hm : b ∈ memory.blocks := List.mem_of_find?_eq_some (Except.ok.inj hb)
  have hcases : b = outer ∨ b = inner ∨ b = ⟨cid 2, []⟩ := by simpa [memory] using hm
  rcases hcases with rfl | rfl | rfl
  · exact .inl ⟨rfl, (Except.ok.inj hv).symm⟩
  · exact .inr ⟨by decide, (Except.ok.inj hv).symm⟩
  · exact .inr ⟨by decide, (Except.ok.inj hv).symm⟩

/-- What can be reached from the list is the list and what it links to. -/
theorem reaches_stored {χ : Cid} (h : Reaches codecs stored outer.cid χ) :
    χ = outer.cid ∨ χ = inner.cid := by
  induction h with
  | refl => exact .inl rfl
  | tail _ step _ =>
    obtain ⟨v, hv, hχ⟩ := step
    obtain ⟨-, rfl⟩ | ⟨-, rfl⟩ := rootOf_stored hv
    · exact .inr (by simpa [Node.links] using hχ)
    · simp [Node.links] at hχ

/-- Both blocks are there, and the second has no links. -/
theorem intact_stored : Intact codecs stored outer.cid where
  present χ hχ := by
    obtain rfl | rfl := reaches_stored hχ
    · exact ⟨.list [.link inner.cid], outer, rfl, rfl⟩
    · exact ⟨.null, inner, rfl, rfl⟩
  plain χ v _ hv := by
    obtain ⟨-, rfl⟩ | ⟨-, rfl⟩ := rootOf_stored hv <;> rfl
  acyclic χ _ back := by
    have falls : ∀ {ψ ω}, Relation.TransGen (LinksTo codecs stored) ψ ω → rank ω < rank ψ := by
      intro ψ ω h
      induction h with
      | single step =>
        obtain ⟨v, hv, hψ⟩ := step
        exact ranked_memory _ v hv _ hψ
      | tail _ step ih =>
        obtain ⟨v, hv, hψ⟩ := step
        exact (ranked_memory _ v hv _ hψ).trans ih
    exact (falls back).false

/-- A list of a node without value is what the two blocks are together. -/
theorem inlinedRoot_stored : InlinedRoot codecs stored outer.cid (.list [.null]) := by
  refine ⟨fun χ => if χ = outer.cid then .list [.null] else .null, fun χ v _ hv => ?_, rfl⟩
  obtain ⟨rfl, rfl⟩ | ⟨hχ, rfl⟩ := rootOf_stored hv
  · simp [Node.inline, show inner.cid ≠ outer.cid by decide]
  · simp [Node.inline, hχ]

/-- A block that holds both. -/
def whole : Block := ⟨cid 3, [7]⟩

/-- The codec that it is written with. -/
def wholeCodecs : Registry := ⟨[⟨⟨0⟩, fun _ => .ok (.list [.null]), fun _ => .ok []⟩]⟩

end OneLink

open OneLink in
/-- Taking all items twice does not get through, neither in two blocks nor in one. -/
theorem Traversal.boundaries_transparent_oneLink :
    Store.memory.get.Answers memory stored
      ∧ Intact codecs stored outer.cid
      ∧ InlinedRoot codecs stored outer.cid (.list [.null])
      ∧ ((Store.memory.get whole.cid).run ⟨[whole]⟩).1 = .ok (some whole)
      ∧ wholeCodecs.decode whole = .ok (.list [.null])
      ∧ ∃ B ρ, DrainsTo Store.memory.get codecs ⟨outer.cid, [.pick .all, .pick .all]⟩ memory
            ⟨B, .ok ρ⟩
          ∧ DrainsTo Store.memory.get wholeCodecs ⟨whole.cid, [.pick .all, .pick .all]⟩ ⟨[whole]⟩
            ⟨[whole], .ok ρ⟩ := by
  have answers := BlockReader.answers_memory memory
  have hread : ((Store.memory.get whole.cid).run ⟨[whole]⟩).1 = .ok (some whole) := by rfl
  have hdecode : wholeCodecs.decode whole = .ok (.list [.null]) := by rfl
  exact ⟨answers, intact_stored, inlinedRoot_stored, hread, hdecode,
    (boundaries_transparent answers intact_stored).2 _ inlinedRoot_stored Store.memory.get
      wholeCodecs ⟨[whole]⟩ whole.cid whole hread hdecode _⟩

end BlockWalk
