import IntervalDag.Proofs.Walk.Twins

/-!
# Walks in any interleaving

Walks share a graph with each other, with a workspace and with analyses. As long as the graph is not built on, each
of them shows what it would show if it were the only one (`Commons.walks_independent`).

The proof compares a run with the run of the requests to one of the walks. In both, that walk goes the same way
(`Commons.Alike`): its own requests come to the same for twins, and all other commands spare the slot it holds.
-/

namespace IntervalDag

variable {α : Type}

/-! ### What a walk holds -/

namespace Walk

variable {w w' : Walk} {g g' : Graph α} {n : NodeId}

/-- Whether a walk holds a slot after a request, given whether it did before. -/
def Request.holds (held : Bool) : Request → Bool
  | .start _ mode revisits => tracks mode revisits
  | .drop => false
  | .restart _ | .next | .skip | .select _ | .write _ _ | .read _ => held

/-- The word that a walk wrote last on a node since it took its slot, if it wrote any. -/
def Request.written (n : NodeId) (word? : Option UInt64) : Request → Option UInt64
  | .start _ mode revisits => if tracks mode revisits then word? else none
  | .drop => none
  | .write m word => if m = n then some word else word?
  | .restart _ | .next | .skip | .select _ | .read _ => word?

theorem Readied.isSome_slot {mode : Mode} {revisits : Bool} (h : Readied w g mode revisits w' g') :
    w'.slot.isSome = tracks mode revisits := by
  have hslot := h.slot
  cases htracks : tracks mode revisits with
  | true =>
    rw [if_pos htracks] at hslot
    obtain ⟨i, hi, -⟩ := hslot
    rw [hi]
    rfl
  | false =>
    rw [if_neg (by simp [htracks])] at hslot
    rw [hslot.1]
    rfl

/-- Only starting and dropping decide whether a walk holds a slot. -/
theorem Served.isSome_slot {r : Request} (h : Served w g r w' g') : w'.slot.isSome = r.holds w.slot.isSome := by
  cases h with
  | started hready h =>
    rw [h.slot_eq]
    exact hready.isSome_slot
  | restarted h | stepped h | skipped h =>
    rw [h.slot_eq]
    rfl
  | selected stops => rfl
  | written hslot hn => rfl
  | read n => rfl
  | dropped => rfl

/-- A walk finds a word again. -/
def Recalls (w : Walk) (g : Graph α) (n : NodeId) (word? : Option UInt64) : Prop :=
  ∀ word, word? = some word → w.userData g n = .ok word

theorem userData_eq_ok_iff {word : UInt64} : w.userData g n = .ok word ↔
    ∃ i, w.slot = some i ∧ n < g.arena.capacity ∧ (g.arena.scratch i n).userData = word := by
  constructor
  · intro h
    obtain ⟨i, hi, h⟩ := Checked.bind_eq_ok.mp h
    obtain ⟨slot, hslot, h⟩ := Checked.bind_eq_ok.mp h
    obtain ⟨hn, rfl⟩ := Arena.slot_eq_ok_iff.mp hslot
    rw [slotIndex] at hi
    split at hi
    · exact ⟨i, Except.ok.inj hi ▸ ‹_›, hn, Except.ok.inj h⟩
    · cases hi
  · rintro ⟨i, hslot, hn, rfl⟩
    exact userData_eq hslot hn

namespace Recalls

variable {word? : Option UInt64}

/-- Words stay where they are written if the slot is kept. -/
theorem of_scratch (h : w.Recalls g n word?) (hslot : w'.slot = w.slot)
    (hcapacity : g'.arena.capacity = g.arena.capacity)
    (hscratch : ∀ i, w.slot = some i → (g'.arena.scratch i n).userData = (g.arena.scratch i n).userData) :
    w'.Recalls g' n word? := by
  intro word hword
  obtain ⟨i, hi, hn, hdata⟩ := userData_eq_ok_iff.mp (h word hword)
  exact userData_eq_ok_iff.mpr ⟨i, hslot.trans hi, hcapacity ▸ hn, (hscratch i hi).trans hdata⟩

theorem moved (h : w.Recalls g n word?) (hmoved : Moved w g w' g') : w'.Recalls g' n word? :=
  h.of_scratch hmoved.slot_eq hmoved.walked.agree.capacity_eq fun i _ => hmoved.userData_eq i n

/-- A walk that starts keeps a slot that it holds, and what it wrote there. -/
theorem readied (h : w.Recalls g n word?) {mode : Mode} {revisits : Bool} (hready : Readied w g mode revisits w' g')
    (htracks : tracks mode revisits = true) : w'.Recalls g' n word? := by
  intro word hword
  obtain ⟨i, hi, hn, hdata⟩ := userData_eq_ok_iff.mp (h word hword)
  have hslot := hready.slot
  rw [if_pos htracks] at hslot
  obtain ⟨j, hj, ⟨hkept, -⟩ | ⟨hnone, -⟩⟩ := hslot
  · rw [userData_eq_ok_iff, hready.arena_eq]
    exact ⟨i, hj.trans (hkept.symm.trans hi), hn, hdata⟩
  · rw [hnone] at hi
    cases hi

/-- **One request.** -/
theorem served (h : w.Recalls g n word?) {r : Request} (hserved : Served w g r w' g') :
    w'.Recalls g' n (r.written n word?) := by
  cases hserved with
  | @started root mode revisits _ _ _ _ hready hmoved =>
    rw [Request.written]
    split
    · exact (h.readied hready ‹_›).moved hmoved
    · intro word hword
      cases hword
  | restarted hmoved | stepped hmoved | skipped hmoved => exact h.moved hmoved
  | selected stops => exact h.of_scratch rfl rfl fun _ _ => rfl
  | @written i m word hslot hm =>
    rw [Request.written]
    have hcapacity : (g.modify m (·.modifySlot i fun slot => { slot with userData := word })).arena.capacity =
        g.arena.capacity := Arena.capacity_modify ..
    split
    · rename_i hmn
      rw [hmn] at hm hcapacity ⊢
      rintro _ ⟨rfl⟩
      refine userData_eq_ok_iff.mpr ⟨i, hslot, hcapacity ▸ hm, ?_⟩
      rw [Graph.modify, Arena.scratch_modify_slot hm, if_pos ⟨rfl, rfl⟩]
    · rename_i hmn
      refine h.of_scratch rfl hcapacity fun j _ => ?_
      rw [Graph.modify, Arena.scratch_modify_slot hm, if_neg fun hn => hmn hn.1.symm]
  | read m => exact h
  | dropped =>
    intro word hword
    cases hword

end Recalls

end Walk

/-! ### One walk among others -/

namespace Commons

variable {i j : Nat} {s s' t t' : Commons α}

/-- Builds nothing on the graph, and no references are taken or given back. -/
def Command.IsSteady : Command α → Prop
  | .work (.request _) => False
  | .work _ | .analyse _ | .walk _ _ => True

/-- The requests to a walk. -/
def requests (i : Nat) (cs : List (Command α)) : List Walk.Request :=
  cs.filterMap fun
    | .walk j r => if j = i then some r else none
    | .work _ | .analyse _ => none

/-- The requests to a walk as commands, without any other commands. -/
def alone (i : Nat) (cs : List (Command α)) : List (Command α) := (requests i cs).map (.walk i)

/-- What a walk has shown each time it moved. -/
def sights (i : Nat) (answers : List (Nat × Walk.Answer)) : List Sight :=
  answers.filterMap fun (j, answer) => if j = i then answer.sight? else none

/-- Whether a walk holds a slot after the commands, if it held none before. -/
def holdsSlot (i : Nat) (cs : List (Command α)) : Bool := (requests i cs).foldl Walk.Request.holds false

/-- The word that a walk wrote last on a node since it took its slot, if it wrote any. -/
def lastWritten (i : Nat) (n : NodeId) (cs : List (Command α)) : Option UInt64 :=
  (requests i cs).foldl (Walk.Request.written n) none

theorem requests_own (r : Walk.Request) (cs : List (Command α)) :
    requests i (.walk i r :: cs) = r :: requests i cs := by
  simp [requests]

theorem requests_other {c : Command α} (hother : ∀ r, c ≠ .walk i r) (cs : List (Command α)) :
    requests i (c :: cs) = requests i cs := by
  cases c with
  | work c => rfl
  | analyse a => rfl
  | walk j r =>
    have hji : j ≠ i := fun hji => hother r (by rw [hji])
    simp [requests, hji]

theorem sights_append (first rest : List (Nat × Walk.Answer)) :
    sights i (first ++ rest) = sights i first ++ sights i rest :=
  List.filterMap_append

/-! #### Commands to others -/

/-- What a command does to a walk that it is not for. -/
structure Spared (i : Nat) (s s' : Commons α) : Prop where
  walk_eq : s'.walks i = s.walks i
  children : Arena.AgreeOn (·.children) s.graph.arena s'.graph.arena
  scratch_eq : ∀ a, (s.walks i).slot = some a → ∀ n, s'.graph.arena.scratch a n = s.graph.arena.scratch a n

namespace Spared

/-- A pass spares the slots that are taken. -/
theorem of_passed (h : s.Orderly) (hwalks : s'.walks = s.walks)
    (hchildren : Arena.AgreeOn (·.children) s.graph.arena s'.graph.arena) (hpassed : s.graph.Passed s'.graph) :
    Spared i s s' where
  walk_eq := by rw [hwalks]
  children := hchildren
  scratch_eq a ha := hpassed.scratch_eq a ((h.lent.mem_iff a).mpr ⟨i, ha⟩)

/-- A request to another walk spares all slots but that of the other walk. -/
theorem of_requested (h : s.Orderly) (hij : i ≠ j) {w' : Walk} {g' : Graph α}
    (hrequested : (s.walks j).Requested s.graph w' g') : Spared i s (s.withWalk j (w', g')) where
  walk_eq := Function.update_of_ne hij _ _
  children := hrequested.walked.children
  scratch_eq a ha n := hrequested.scratch_eq a ((h.lent.mem_iff a).mpr ⟨i, ha⟩)
    (fun hj => hij (h.lent.injective i j a ha hj)) n

theorem recalls (h : Spared i s s') {n : NodeId} {word? : Option UInt64}
    (hword : (s.walks i).Recalls s.graph n word?) : (s'.walks i).Recalls s'.graph n word? := by
  refine hword.of_scratch (by rw [h.walk_eq]) h.children.capacity_eq fun a ha => ?_
  rw [h.scratch_eq a ha]

end Spared

/-! #### Two runs -/

/-- A walk goes the same way in two runs, and in the second no other walk holds a slot. -/
structure Alike (i : Nat) (s t : Commons α) : Prop where
  orderly : s.Orderly
  orderly' : t.Orderly
  twins : (s.walks i).Twins s.graph (t.walks i) t.graph
  others : ∀ j, j ≠ i → (t.walks j).slot = none

namespace Alike

/-- A walk without company finds a free slot. -/
theorem room (h : Alike i s t) : (t.walks i).slot ≠ none ∨ t.graph.walks.lowestFree? ≠ none := by
  by_cases hslot : (t.walks i).slot = none
  · refine Or.inr (SlotPool.lowestFree?_ne_none (List.eq_nil_iff_forall_not_mem.mpr fun k hk => ?_))
    obtain ⟨j, hj⟩ := (h.orderly'.lent.mem_iff k).mp hk
    by_cases hji : j = i
    · rw [hji, hslot] at hj
      cases hj
    · rw [h.others j hji] at hj
      cases hj
  · exact Or.inl hslot

/-- A command to others in the first run. -/
theorem spared (h : Alike i s t) (horderly : s'.Orderly) (hspared : Spared i s s') : Alike i s' t where
  orderly := horderly
  orderly' := h.orderly'
  twins := by
    rw [hspared.walk_eq]
    exact h.twins.of_left hspared.children hspared.scratch_eq
  others := h.others

end Alike

variable [Scalar α] [BitPattern α] [NumberText α]

/-- **Commands to others.** -/
theorem spared_of_serve (h : s.Orderly) {c : Command α} (hc : c.IsSteady) (hother : ∀ r, c ≠ .walk i r)
    {answers : List (Nat × Walk.Answer)} (hrun : s.serve c = .ok (s', answers)) :
    Spared i s s' ∧ sights i answers = [] := by
  cases served_of_serve h hrun with
  | @worked c w hserve =>
    rcases Workspace.serve_cases h.ordered hserve with ⟨r, rfl, -⟩ | ⟨op, handler, -, hgraph, -⟩ | ⟨hprop, -⟩
    · exact hc.elim
    · have harena : w.state.graph.arena = s.graph.arena := by
        rw [hgraph]
        rfl
      refine ⟨⟨rfl, harena ▸ .refl _ _, fun a _ n => ?_⟩, rfl⟩
      rw [← harena]
    · exact ⟨.of_passed h rfl hprop.terms.children hprop.toPassed, rfl⟩
  | analysed htoured => exact ⟨.of_passed h rfl htoured.walked.children htoured.toPassed, rfl⟩
  | @requested j r w g answer hserve =>
    have hij : i ≠ j := fun hij => hother r (by rw [hij])
    exact ⟨.of_requested h hij (h.requested hserve), by simp [sights, hij.symm]⟩

/-- **Requests to the walk.** -/
theorem walkServed_of_serve (h : s.Orderly) {r : Walk.Request} {answers : List (Nat × Walk.Answer)}
    (hrun : s.serve (.walk i r) = .ok (s', answers)) :
    (s.walks i).Served s.graph r (s'.walks i) s'.graph := by
  cases served_of_serve h hrun with
  | @requested _ _ w g _ hserve =>
    have hwalk : (s.withWalk i (w, g)).walks i = w := Function.update_self ..
    rw [hwalk]
    exact Walk.served_of_serve (h.home i) hserve

/-- What a walk holds after a run is what its own requests say. -/
theorem walk_of_serveAll (h : s.Orderly) {cs : List (Command α)} (hcs : ∀ c ∈ cs, c.IsSteady)
    {answers : List (Nat × Walk.Answer)} (hrun : s.serveAll cs = .ok (s', answers)) (n : NodeId)
    {word? : Option UInt64} (hword : (s.walks i).Recalls s.graph n word?) :
    (s'.walks i).slot.isSome = (requests i cs).foldl Walk.Request.holds (s.walks i).slot.isSome ∧
      (s'.walks i).Recalls s'.graph n ((requests i cs).foldl (Walk.Request.written n) word?) := by
  induction cs generalizing s answers word? with
  | nil =>
    cases hrun
    exact ⟨rfl, hword⟩
  | cons c cs ih =>
    obtain ⟨s₁, first, rest, hserve, hrest, -⟩ := Run.collect_cons_eq_ok.mp hrun
    have horderly := orderly_of_serve h hserve
    have hcs' : ∀ c ∈ cs, c.IsSteady := fun c hc => hcs c (List.mem_cons_of_mem _ hc)
    by_cases hown : ∃ r, c = .walk i r
    · obtain ⟨r, rfl⟩ := hown
      have hserved := walkServed_of_serve h hserve
      rw [requests_own, List.foldl_cons, List.foldl_cons, ← hserved.isSome_slot]
      exact ih horderly hcs' hrest (hword.served hserved)
    · have hother : ∀ r, c ≠ .walk i r := fun r hr => hown ⟨r, hr⟩
      obtain ⟨hspared, -⟩ := spared_of_serve h (hcs c List.mem_cons_self) hother hserve
      rw [requests_other hother, ← hspared.walk_eq]
      exact ih horderly hcs' hrest (hspared.recalls hword)

/-- **A request to the walk in both runs** comes to the same, unless the walk is refused a slot in the first. -/
theorem Alike.serve (h : Alike i s t) (r : Walk.Request) :
    s.serve (.walk i r) = .error .slotsExhausted ∨
      Matches (fun p q => Alike i p.1 q.1 ∧ sights i p.2 = sights i q.2) (s.serve (.walk i r))
        (t.serve (.walk i r)) := by
  have hserve := h.twins.serve h.orderly.ordered.tagsGiven h.orderly'.ordered.tagsGiven (h.orderly.home i)
    (h.orderly'.home i) h.room r
  rw [Commons.serve, Commons.serve]
  rcases hs : (s.walks i).serve s.graph r with e | ⟨⟨w, g⟩, answer⟩
  · rw [hs] at hserve
    rcases ht : (t.walks i).serve t.graph r with e' | q
    · rw [ht] at hserve
      exact hserve.imp (fun h => congrArg _ (Except.error.inj h)) id
    · rw [ht] at hserve
      exact hserve.imp (fun h => congrArg _ (Except.error.inj h)) False.elim
  rw [hs] at hserve
  rcases ht : (t.walks i).serve t.graph r with e' | ⟨⟨v, k⟩, answer'⟩
  · rw [ht] at hserve
    exact hserve.elim nofun False.elim
  rw [ht] at hserve
  obtain ⟨htwins, hsight⟩ := hserve.resolve_left nofun
  have hw : (s.withWalk i (w, g)).walks i = w := Function.update_self ..
  have hv : (t.withWalk i (v, k)).walks i = v := Function.update_self ..
  have hothers : ∀ j, j ≠ i → (t.withWalk i (v, k)).walks j = t.walks j := fun j hj => Function.update_of_ne hj _ _
  have hsights : ∀ answer, sights i [(i, answer)] = answer.sight?.toList := by
    intro answer
    cases answer <;> simp [sights, Walk.Answer.sight?]
  refine Or.inr ⟨⟨h.orderly.withWalk (h.orderly.requested hs), h.orderly'.withWalk (h.orderly'.requested ht),
    ?_, fun j hj => ?_⟩, ?_⟩
  · rw [hw, hv]
    exact htwins
  · rw [hothers j hj]
    exact h.others j hj
  · change sights i [(i, answer)] = sights i [(i, answer')]
    rw [hsights, hsights]
    exact congrArg Option.toList hsight

/-- **Both runs.** If the first meets no fault, the second goes on without one and shows the same. -/
theorem Alike.serveAll (h : Alike i s t) {cs : List (Command α)} (hcs : ∀ c ∈ cs, c.IsSteady)
    {answers : List (Nat × Walk.Answer)} (hrun : s.serveAll cs = .ok (s', answers)) :
    ∃ t' answers', t.serveAll (alone i cs) = .ok (t', answers') ∧ Alike i s' t' ∧
      sights i answers = sights i answers' := by
  induction cs generalizing s t answers with
  | nil =>
    cases hrun
    exact ⟨t, [], rfl, h, rfl⟩
  | cons c cs ih =>
    obtain ⟨s₁, first, rest, hserve, hrest, rfl⟩ := Run.collect_cons_eq_ok.mp hrun
    have hcs' : ∀ c ∈ cs, c.IsSteady := fun c hc => hcs c (List.mem_cons_of_mem _ hc)
    by_cases hown : ∃ r, c = .walk i r
    · obtain ⟨r, rfl⟩ := hown
      have hmatches := (h.serve r).resolve_left (by rw [hserve]; nofun)
      rw [hserve] at hmatches
      rcases ht : t.serve (.walk i r) with e | ⟨t₁, first'⟩
      · rw [ht] at hmatches
        exact hmatches.elim
      rw [ht] at hmatches
      -- the walk's own request moves both runs
      obtain ⟨t', rest', hrun', halike, hsights⟩ := ih hmatches.1 hcs' hrest
      refine ⟨t', first' ++ rest', ?_, halike, by rw [sights_append, sights_append, hmatches.2, hsights]⟩
      rw [alone, requests_own, List.map_cons]
      exact Run.collect_cons_eq_ok.mpr ⟨t₁, first', rest', ht, hrun', rfl⟩
    · have hother : ∀ r, c ≠ .walk i r := fun r hr => hown ⟨r, hr⟩
      obtain ⟨hspared, hfirst⟩ := spared_of_serve h.orderly (hcs c List.mem_cons_self) hother hserve
      -- any other command moves the first run only, and the second has to catch up on nothing
      obtain ⟨t', rest', hrun', halike, hsights⟩ :=
        ih (h.spared (orderly_of_serve h.orderly hserve) hspared) hcs' hrest
      refine ⟨t', rest', ?_, halike, by rw [sights_append, hfirst, List.nil_append, hsights]⟩
      rw [alone, requests_other hother]
      exact hrun'

/-- **Walks do not interfere.** Begin in any state that a new workspace can come to in which no walk holds a slot, and
take any interleaving of requests to walks, analyses and commands to the workspace that does not build on the graph.
If it meets no fault then depth-first walks and walks without revisits, and no others, hold a slot each, and no two of
them the same. Every walk has shown what it would have shown without other walks and commands, and it would be refused
the same requests unless there is no slot for it. It finds again what it wrote last on a node since it took its
slot. -/
theorem walks_independent (settings : Settings α) (identity : Nat) (store : BoundTable α)
    {before cs : List (Command α)} {s₀ s : Commons α} {first answers : List (Nat × Walk.Answer)}
    (hbefore : (new settings identity store).serveAll before = .ok (s₀, first))
    (hnone : s₀.graph.walks.activeCount = 0) (hcs : ∀ c ∈ cs, c.IsSteady)
    (hrun : s₀.serveAll cs = .ok (s, answers)) :
    (∀ i, (s.walks i).slot.isSome = holdsSlot i cs) ∧
    (∀ i j k, (s.walks i).slot = some k → (s.walks j).slot = some k → i = j) ∧
    s.graph.walks.activeCount = {i | holdsSlot i cs = true}.ncard ∧
    (∀ i, ∃ t shown, s₀.serveAll (alone i cs) = .ok (t, shown) ∧ sights i answers = sights i shown ∧
      ∀ r e, s.serve (.walk i r) = .error e → e = .slotsExhausted ∨ t.serve (.walk i r) = .error e) ∧
    ∀ i n word, lastWritten i n cs = some word →
      s.serve (.walk i (.read n)) = .ok (s, [(i, .word word)]) := by
  have h₀ : s₀.Orderly := orderly_of_serveAll (orderly_new settings identity store) hbefore
  have h : s.Orderly := orderly_of_serveAll h₀ hrun
  have hfree : ∀ i, (s₀.walks i).slot = none := by
    intro i
    rcases hslot : (s₀.walks i).slot with _ | k
    · rfl
    · have hk : k ∈ s₀.graph.walks.taken := (h₀.lent.mem_iff k).mpr ⟨i, hslot⟩
      rw [List.length_eq_zero_iff.mp hnone] at hk
      cases hk
  have hholds : ∀ i, (s.walks i).slot.isSome = holdsSlot i cs := by
    intro i
    have hnothing : (s₀.walks i).Recalls s₀.graph 0 none := nofun
    have hslot := (walk_of_serveAll h₀ hcs hrun 0 hnothing).1
    rwa [hfree i] at hslot
  refine ⟨hholds, h.lent.injective, ?_, fun i => ?_, fun i n word hword => ?_⟩
  · rw [SlotPool.activeCount, h.lent.length_eq]
    simp only [hholds]
  · have halike : Alike i s₀ s₀ := ⟨h₀, h₀, .refl _ _, fun j _ => hfree j⟩
    obtain ⟨t, shown, halone, halike', hsights⟩ := halike.serveAll hcs hrun
    refine ⟨t, shown, halone, hsights, fun r e hfault => ?_⟩
    rcases halike'.serve r with hexhausted | hmatches
    · exact Or.inl (Except.error.inj (hfault.symm.trans hexhausted))
    · rw [hfault] at hmatches
      rcases ht : t.serve (.walk i r) with e' | q
      · rw [ht] at hmatches
        exact Or.inr (congrArg _ hmatches.symm)
      · rw [ht] at hmatches
        exact hmatches.elim
  · have hnothing : (s₀.walks i).Recalls s₀.graph n none := nofun
    have hread := (walk_of_serveAll h₀ hcs hrun n hnothing).2 word hword
    have hself : s.withWalk i (s.walks i, s.graph) = s := by
      rw [withWalk, Function.update_eq_self]
      rfl
    rw [Commons.serve, Walk.serve, hread]
    change Except.ok (s.withWalk i (s.walks i, s.graph), _) = _
    rw [hself]

/-- Two walks over a sum whose operands are one node, with a third walk and an analysis in between. The slots bear
what an earlier walk left. -/
theorem walks_independent_of_pair :
    let before : List (Command Float) :=
      [.work (.request (.value 1)), .work (.request (.apply .exp 0 rfl)),
        .work (.request (.add (.sum [1, 1] 0) [1, 1])), .walk 7 (.start (some 2) .depthFirst false),
        .walk 7 (.write 1 9), .walk 7 .drop]
    let cs : List (Command Float) :=
      [.walk 0 (.start (some 2) .depthFirst false), .walk 1 (.start (some 2) .depthFirst true), .walk 0 (.write 1 5),
        .walk 1 (.write 1 6), .walk 1 .next, .analyse (.foldConstant 1), .walk 2 (.start (some 2) .breadthFirst true),
        .walk 0 .next, .walk 1 .skip, .walk 0 .next]
    ∃ s₀ first s answers, (new default 0 (.ofList [])).serveAll before = .ok (s₀, first) ∧
      s₀.graph.walks.activeCount = 0 ∧ (∀ c ∈ cs, c.IsSteady) ∧ s₀.serveAll cs = .ok (s, answers) ∧
      (s.walks 0).slot.isSome = true ∧ (s.walks 1).slot.isSome = true ∧ (s.walks 2).slot.isSome = false ∧
      (∃ t shown, s₀.serveAll (alone 0 cs) = .ok (t, shown) ∧ sights 0 answers = sights 0 shown) ∧
      s.serve (.walk 0 (.read 1)) = .ok (s, [(0, .word 5)]) ∧
      s.serve (.walk 1 (.read 1)) = .ok (s, [(1, .word 6)]) := by
  intro before cs
  have hreturns : (match (new default 0 (.ofList [])).serveAll before with
      | .ok (s₀, _) => s₀.graph.walks.activeCount == 0 && (s₀.serveAll cs).isOk
      | .error _ => false) = true := by decide +kernel
  have hcs : ∀ c ∈ cs, c.IsSteady := by simp [cs, Command.IsSteady]
  rcases hbefore : (new default 0 (.ofList [])).serveAll before with e | ⟨s₀, first⟩
  · rw [hbefore] at hreturns
    cases hreturns
  rw [hbefore, Bool.and_eq_true, beq_iff_eq] at hreturns
  obtain ⟨hnone, hreturns⟩ := hreturns
  rcases hrun : s₀.serveAll cs with e | ⟨s, answers⟩
  · rw [hrun] at hreturns
    cases hreturns
  obtain ⟨hholds, -, -, halone, hread⟩ := walks_independent default 0 (.ofList []) hbefore hnone hcs hrun
  obtain ⟨t, shown, hrun₀, hsights, -⟩ := halone 0
  exact ⟨s₀, first, s, answers, rfl, hnone, hcs, hrun, (hholds 0).trans (by decide), (hholds 1).trans (by decide),
    (hholds 2).trans (by decide), ⟨t, shown, hrun₀, hsights⟩, hread 0 1 5 (by decide), hread 1 1 6 (by decide)⟩

end Commons

end IntervalDag
