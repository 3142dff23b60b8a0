import IntervalDag.Proofs.Graph.Inheritance
import IntervalDag.Proofs.Propagation.Epochs

/-!
# Requests and caches

Requests make blank entries and leave the caches of others alone. So the tags on nodes stay in order
(`Graph.Ordered.serve`), whether or not callers keep to the rules.

If they do, then fresh activities also stay above fresh ones (`Graph.Sound.freshClosed_serve`). A number that
is taken over by a new node is nobody's operand by then, and appending an operand raises the epoch.
-/

namespace IntervalDag

variable {α : Type}

/-! ### Entries -/

/-- What on a node is told apart by epochs and visit tags. -/
def Node.tags (node : Node α) : Nat × Nat × Array Slot := (node.activityTag, node.propTag, node.slots)

namespace Arena

/-- Each entry was made anew or has the tags that it had. -/
def Stems (a a' : Arena α) : Prop :=
  ∀ n node', a'.node? n = some node' →
    node'.tags = (0, 0, #[]) ∨ ∃ node, a.node? n = some node ∧ node'.tags = node.tags

namespace Stems

variable {a a₁ : Arena α}

theorem refl (a : Arena α) : Stems a a := fun _ node hn => Or.inr ⟨node, hn, rfl⟩

theorem of_add [Scalar α] {kind : Kind α} {cs : List NodeId} {n : NodeId}
    (hrun : a.add kind cs = .ok (n, a₁)) : Stems a a₁ := by
  obtain ⟨-, -, hnode⟩ := add_cases hrun
  intro m node₁ hm
  rcases hnode m with ⟨h, -⟩ | h
  · rw [h] at hm
    cases hm
    exact Or.inl rfl
  · rw [h] at hm
    obtain ⟨node, hnode, rfl⟩ := Option.map_eq_some_iff.mp hm
    exact Or.inr ⟨node, hnode, rfl⟩

theorem of_releaseAll [Scalar α] {pending : List NodeId} {freed freed' : List (NodeId × Kind α)}
    (hrun : a.releaseAll freed pending = .ok (a₁, freed')) : Stems a a₁ := by
  intro m node₁ hm
  rcases node?_of_releaseAll hrun hm with rfl | ⟨node, refs, hnode, rfl, -⟩
  · exact Or.inl rfl
  · exact Or.inr ⟨node, hnode, rfl⟩

end Stems

end Arena

/-- An appended operand changes no tags. -/
theorem Graph.Appended.stems [Scalar α] {g g' : Graph α} {parent child : NodeId} {coef : α}
    (h : g.Appended g' parent child coef) : Arena.Stems g.arena g'.arena := by
  intro m node' hm
  by_cases hp : m = parent
  · rw [hp, h.parent_eq] at hm
    obtain ⟨node, hnode, rfl⟩ := Option.map_eq_some_iff.mp hm
    exact Or.inr ⟨node, hp ▸ hnode, rfl⟩
  by_cases hc : m = child
  · rw [hc, h.child_eq] at hm
    obtain ⟨node, hnode, rfl⟩ := Option.map_eq_some_iff.mp hm
    exact Or.inr ⟨node, hc ▸ hnode, rfl⟩
  · rw [h.other_eq m hp hc] at hm
    exact Or.inr ⟨node', hm, rfl⟩

/-! ### Epochs and walks -/

/-- What requests leave of caches, epochs and walks. -/
structure Graph.Stemmed (g g' : Graph α) : Prop where
  stems : Arena.Stems g.arena g'.arena
  walks_eq : g'.walks = g.walks
  identity_eq : g'.identity = g.identity
  boundsEpoch_le : g.boundsEpoch ≤ g'.boundsEpoch ∧ g'.boundsEpoch ≤ g'.epochs.last
  roundEpoch_eq : g'.roundEpoch = g.roundEpoch
  roundBoundsEpoch_eq : g'.roundBoundsEpoch = g.roundBoundsEpoch
  last_le : g.epochs.last ≤ g'.epochs.last

namespace Graph.Stemmed

variable {g g' : Graph α}

/-- Entries that stem from those before, with all else as it was. -/
theorem of_stems (hbounds : g.boundsEpoch ≤ g.epochs.last) {arena : Arena α} (h : Arena.Stems g.arena arena)
    (varNodes : Std.HashMap VarId NodeId) : Stemmed g { g with arena, varNodes } :=
  ⟨h, rfl, rfl, ⟨Nat.le_refl _, hbounds⟩, rfl, rfl, Nat.le_refl _⟩

/-- The tags stay in order. -/
theorem dated (h : g.Stemmed g') (hdated : g.Dated) : g'.Dated := by
  refine ⟨Nat.lt_of_lt_of_le hdated.boundsEpoch_pos h.boundsEpoch_le.1, h.boundsEpoch_le.2, ?_, ?_,
    fun n node' hn => ?_, fun n node' hn => ?_⟩
  · rw [h.roundEpoch_eq]
    exact Nat.le_trans hdated.roundEpoch_le h.last_le
  · rw [h.roundBoundsEpoch_eq]
    exact Nat.le_trans hdated.roundBoundsEpoch_le h.boundsEpoch_le.1
  · rcases h.stems n node' hn with hblank | ⟨node, hnode, heq⟩
    · rw [show node'.activityTag = 0 from congrArg Prod.fst hblank]
      exact Nat.zero_le _
    · rw [show node'.activityTag = node.activityTag from congrArg Prod.fst heq]
      exact Nat.le_trans (hdated.activityTag_le n node hnode) h.boundsEpoch_le.1
  · rcases h.stems n node' hn with hblank | ⟨node, hnode, heq⟩
    · rw [show node'.propTag = 0 from congrArg (·.2.1) hblank]
      exact Nat.zero_le _
    · rw [show node'.propTag = node.propTag from congrArg (·.2.1) heq, h.roundEpoch_eq]
      exact hdated.propTag_le n node hnode

theorem tagsGiven (h : g.Stemmed g') (htags : g.TagsGiven) : g'.TagsGiven := by
  intro n node' slot hn
  rw [h.walks_eq, Node.slot]
  rcases h.stems n node' hn with hblank | ⟨node, hnode, heq⟩
  · rw [show node'.slots = #[] from congrArg (·.2.2) hblank]
    exact Nat.zero_le _
  · rw [show node'.slots = node.slots from congrArg (·.2.2) heq]
    exact htags n node slot hnode

/-- **Every request.** -/
theorem stable [Scalar α] : Graph.Stable fun g g' : Graph α => g.Intact → g.Stemmed g' where
  refl g h := of_stems h.boundsEpoch_le (.refl _) g.varNodes
  capture {g g' n} hrun h := by
    obtain ⟨-, rfl⟩ := Graph.eq_of_capture hrun
    refine of_stems h.boundsEpoch_le (fun m node' hm => ?_) g.varNodes
    rw [Arena.node?_modify] at hm
    split at hm
    · obtain ⟨node, hnode, rfl⟩ := Option.map_eq_some_iff.mp hm
      exact Or.inr ⟨node, hnode, rfl⟩
    · exact Or.inr ⟨node', hm, rfl⟩
  addUnchecked {g g' kind cs n} hrun h := by
    obtain ⟨a, hadd, rfl⟩ := Graph.eq_of_addUnchecked hrun
    exact of_stems h.boundsEpoch_le (.of_add hadd) g.varNodes
  append {g g' parent child coef} hrun h := by
    obtain ⟨-, -, -, happ⟩ := h.exists_appended hrun
    refine ⟨happ.stems, ?_, ?_, ?_, ?_, ?_, ?_⟩
    all_goals rw [happ.rest_eq]
    · exact ⟨Nat.le_succ_of_le h.boundsEpoch_le, Nat.le_refl _⟩
    · exact Nat.le_succ _
  release {g g' n} hrun h := by
    obtain ⟨a, freed, varNodes, hall, rfl⟩ := Graph.eq_of_release hrun
    exact of_stems h.boundsEpoch_le (.of_releaseAll hall) varNodes
  varNodes _ himp h := by
    have h' := himp h
    exact ⟨h'.stems, h'.walks_eq, h'.identity_eq, h'.boundsEpoch_le, h'.roundEpoch_eq, h'.roundBoundsEpoch_eq,
      h'.last_le⟩

end Graph.Stemmed

/-! ### Graphs in order and at rest -/

/-- A graph between requests and commands has its tags in order. -/
structure Graph.Ordered (g : Graph α) : Prop where
  intact : g.Intact
  dated : g.Dated
  tagsGiven : g.TagsGiven

/-- A graph in order on which no walk holds a slot. -/
structure Graph.Resting (g : Graph α) : Prop extends Graph.Ordered g where
  taken_eq : g.walks.taken = []

variable [Scalar α] {g g' : Graph α}

theorem Graph.Resting.empty [BitPattern α] (settings : Settings α) (identity : Nat) :
    (Graph.empty settings identity).Resting where
  intact := .empty settings identity
  dated := by
    refine ⟨Nat.one_pos, Nat.le_succ 1, Nat.le_refl 2, Nat.le_refl 1, fun n node hn => ?_, fun n node hn => ?_⟩
    · cases hn
    · cases hn
  tagsGiven n node slot hn := by cases hn
  taken_eq := rfl

/-- **No request spoils the order of tags.** -/
theorem Graph.Ordered.serve (h : g.Ordered) {r : Request α} {given : List NodeId}
    (hrun : g.serve r = .ok (given, g')) : g'.Ordered ∧ g.Stemmed g' := by
  have hstemmed := Graph.Stemmed.stable.serve hrun h.intact
  exact ⟨⟨Graph.Intact.stable.serve hrun h.intact, hstemmed.dated h.dated, hstemmed.tagsGiven h.tagsGiven⟩,
    hstemmed⟩

omit [Scalar α] in
/-- Nor does a new handler. -/
theorem Graph.Ordered.register (h : g.Ordered) (op : Op) (handler : Handler α) : (g.register op handler).Ordered :=
  ⟨⟨h.intact.operandsInside, h.intact.boundsEpoch_le⟩, ⟨h.dated.boundsEpoch_pos, h.dated.boundsEpoch_le,
    h.dated.roundEpoch_le, h.dated.roundBoundsEpoch_le, h.dated.activityTag_le, h.dated.propTag_le⟩, h.tagsGiven⟩

omit [Scalar α]

/-! ### Fresh activities -/

/-- Nodes in use were in use before, with the same operands and an activity of the same age. -/
def Arena.Older (a a' : Arena α) : Prop :=
  ∀ n node', a'.node? n = some node' → 0 < node'.refs → ∃ node, a.node? n = some node ∧ 0 < node.refs ∧
    node'.activityTag = node.activityTag ∧ node'.children = node.children

namespace Arena.Older

variable {a a₁ : Arena α}

theorem refl (a : Arena α) : Older a a := fun _ node hn hpos => ⟨node, hn, hpos, rfl, rfl⟩

theorem of_releaseAll [Scalar α] {pending : List NodeId} {freed freed' : List (NodeId × Kind α)}
    (hrun : a.releaseAll freed pending = .ok (a₁, freed')) : Older a a₁ := by
  intro m node₁ hm hpos
  rcases node?_of_releaseAll hrun hm with rfl | ⟨node, refs, hnode, rfl, hle⟩
  · exact absurd hpos (Nat.lt_irrefl 0)
  · exact ⟨node, hnode, Nat.lt_of_lt_of_le hpos hle, rfl, rfl⟩

end Arena.Older

/-- What a request does to the activities on nodes in use. Either it raises the epoch of the bounds, or it
makes new ones of unused numbers at most. -/
inductive Graph.Served (g g' : Graph α) : Prop where
  | raised (hepoch : g.epochs.last < g'.boundsEpoch) (hstems : Arena.Stems g.arena g'.arena)
  | kept (hepoch : g'.boundsEpoch = g.boundsEpoch)
      (hkept : ∀ n node', g'.arena.node? n = some node' → 0 < node'.refs →
        (node'.activityTag = 0 ∧ (n ∈ g.arena.free ∨ g.arena.capacity ≤ n)) ∨
        ∃ node, g.arena.node? n = some node ∧ 0 < node.refs ∧
          node'.activityTag = node.activityTag ∧ node'.children = node.children)

namespace Graph.Served

variable [Scalar α] {g g' : Graph α}

omit [Scalar α] in
theorem of_older (hepoch : g'.boundsEpoch = g.boundsEpoch) (h : Arena.Older g.arena g'.arena) :
    g.Served g' := .kept hepoch fun n node' hn hpos => Or.inr (h n node' hn hpos)

omit [Scalar α] in
/-- Entries that got references were in use. -/
theorem of_raised {ns : List NodeId} (hns : ∀ n ∈ ns, g.arena.isAlive n = true) {n : NodeId} {node : Node α}
    (hn : g.arena.node? n = some node) (hpos : 0 < node.refs + ns.count n) : 0 < node.refs := by
  by_cases hmem : n ∈ ns
  · have := Arena.isAlive_iff.mp (hns n hmem)
    rwa [Arena.refs_eq_of_node? hn] at this
  · rwa [List.count_eq_zero_of_not_mem hmem] at hpos

/-- **Every request.** -/
theorem stable : Graph.Stable fun g g' : Graph α => g.Intact → g.Served g' where
  refl g _ := .of_older rfl (.refl _)
  capture {g g' n} hrun _ := by
    obtain ⟨hn, rfl⟩ := Graph.eq_of_capture hrun
    refine .of_older rfl fun m node' hm hpos => ?_
    rw [Arena.node?_modify] at hm
    split at hm
    · rename_i hmn
      obtain ⟨node, hnode, rfl⟩ := Option.map_eq_some_iff.mp hm
      refine ⟨node, hnode, ?_, rfl, rfl⟩
      rw [← Arena.refs_eq_of_node? hnode, hmn]
      exact Arena.isAlive_iff.mp hn
    · exact ⟨node', hm, hpos, rfl, rfl⟩
  addUnchecked {g g' kind cs n} hrun _ := by
    obtain ⟨a, hadd, rfl⟩ := Graph.eq_of_addUnchecked hrun
    obtain ⟨hcs, -, hnode⟩ := Arena.add_cases hadd
    refine .kept rfl fun m node' hm hpos => ?_
    rcases hnode m with ⟨h, hunused⟩ | h
    · rw [h] at hm
      cases hm
      exact Or.inl ⟨rfl, hunused⟩
    · rw [h] at hm
      obtain ⟨node, hnode, rfl⟩ := Option.map_eq_some_iff.mp hm
      exact Or.inr ⟨node, hnode, of_raised hcs hnode hpos, rfl, rfl⟩
  append {g g' parent child coef} hrun h := by
    obtain ⟨-, -, -, happ⟩ := h.exists_appended hrun
    refine .raised ?_ happ.stems
    rw [happ.rest_eq]
    exact Nat.lt_succ_self _
  release {g g' n} hrun _ := by
    obtain ⟨a, freed, varNodes, hall, rfl⟩ := Graph.eq_of_release hrun
    exact .of_older rfl (.of_releaseAll hall)
  varNodes _ himp h := by
    cases himp h with
    | raised hepoch hstems => exact .raised hepoch hstems
    | kept hepoch hkept => exact .kept hepoch hkept

omit [Scalar α] in
/-- **Requests keep fresh activities above fresh ones.** A new node has none, and nothing that stays in use
has it for an operand. -/
theorem freshClosed {held held' : Holding} (h : g.Served g') (hsound : g.Sound held)
    (hsound' : g'.Sound held') (hdated : g.Dated) (hdated' : g'.Dated) (hclosed : g.FreshClosed) :
    g'.FreshClosed := by
  rintro n c halive hop ⟨node', hn, hfresh⟩
  cases h with
  | raised hepoch hstems =>
    -- all activities are from before the epoch was raised
    have hle : node'.activityTag ≤ g.epochs.last := by
      rcases hstems n node' hn with hblank | ⟨node, hnode, heq⟩
      · exact Nat.le_trans (Nat.le_of_eq (congrArg Prod.fst hblank)) (Nat.zero_le _)
      · rw [show node'.activityTag = node.activityTag from congrArg Prod.fst heq]
        exact Nat.le_trans (hdated.activityTag_le n node hnode) hdated.boundsEpoch_le
    omega
  | kept hepoch hkept =>
    have hpos : ∀ {m : NodeId} {node : Node α}, g'.arena.isAlive m = true → g'.arena.node? m = some node →
        0 < node.refs := fun halive hm => Arena.refs_eq_of_node? hm ▸ Arena.isAlive_iff.mp halive
    rcases hkept n node' hn (hpos halive hn) with ⟨hzero, -⟩ | ⟨node, hnode, hposn, htag, hchildren⟩
    · have := hdated'.boundsEpoch_pos
      omega
    rw [Arena.isOperand_iff hn, hchildren] at hop
    have hopg : g.arena.IsOperand c n := by rwa [Arena.isOperand_iff hnode]
    have hcg := hsound.counted.isAlive_operand hopg
    obtain ⟨child, hc, hctag⟩ : g.IsFreshAt c := hclosed n c
      (Arena.isAlive_iff.mpr (Arena.refs_eq_of_node? hnode ▸ hposn)) hopg ⟨node, hnode, by omega⟩
    have hop' : g'.arena.IsOperand c n := by rwa [Arena.isOperand_iff hn, hchildren]
    have hc' := hsound'.counted.isAlive_operand hop'
    obtain ⟨child', hchild', hposc⟩ := Arena.exists_node?_of_isAlive hc'
    refine ⟨child', hchild', ?_⟩
    rcases hkept c child' hchild' hposc with ⟨-, hunused⟩ | ⟨child₀, hchild₀, -, htagc, -⟩
    · have hrefs := Arena.isAlive_iff.mp hcg
      rcases hunused with hfree | hge
      · have := ((hsound.counted.mem_free c).mp hfree).2
        omega
      · exact absurd (Arena.lt_capacity_of_isAlive hcg) (Nat.not_lt.mpr hge)
    · rw [hc] at hchild₀
      cases hchild₀
      omega

end Graph.Served

/-! ### Propagation in between -/

namespace Graph

variable {g g' : Graph α}

/-- Steps of propagation and of walks leave a graph in order. -/
theorem Ordered.of_advanced (h : g.Ordered) (hadvanced : g.Advanced g') (htags : g'.TagsGiven) : g'.Ordered where
  intact := by
    refine ⟨fun c n hc => ?_, hadvanced.dated.boundsEpoch_le⟩
    rw [hadvanced.terms.children.isOperand_eq] at hc
    rw [hadvanced.terms.children.capacity_eq]
    exact h.intact.operandsInside c n hc
  dated := hadvanced.dated
  tagsGiven := htags

/-- Soundness is about terms and counts only. -/
theorem Sound.of_sameTerms {held : Holding} (h : g.Sound held) (hsame : SameTerms g g') : g'.Sound held where
  counted := by
    refine h.counted.of_sameEdges ⟨hsame.children.capacity_eq, hsame.free_eq, fun n => ?_, fun n => ?_⟩
      fun n => ?_
    · rw [hsame.isAlive_eq]
    · rw [hsame.children.operands_eq]
    · rw [hsame.refs.refs_eq]
  acyclic := h.acyclic.of_imp fun c n hc => by rwa [hsame.children.isOperand_eq] at hc
  var_alive v n hv := by
    rw [varNode?, hsame.varNodes_eq] at hv
    obtain ⟨node, hn, hpos, hkind⟩ := h.var_alive v n hv
    obtain ⟨node', hn', hkind', -, hrefs⟩ := hsame.exists_node? hn
    exact ⟨node', hn', hrefs ▸ hpos, hkind'.trans hkind⟩

end Graph

end IntervalDag
