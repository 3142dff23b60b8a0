import IntervalDag.Digest
import IntervalDag.Proofs.Analysis.Parts
import IntervalDag.Proofs.Operator.Feeds

/-!
# Expressions that are alike

Two expressions are alike if they are equal up to the order of terms and factors at every level (`Expression.Alike`).
The words of a digest are mixed anew at each node. How they are mixed is a parameter here, so all that can be said of
digests is said of the words that are fed to it.

* Alike expressions feed the same words (`Expression.Alike.feed_eq`).
* If no two lists of words that are fed on the way are mixed to one word, expressions that feed the same words are
  alike (`Expression.alike_of_feed_eq`).
* `Commons.digest_eq_iff_alike`: so the digests of two roots are equal exactly if the expressions are alike.
-/

namespace IntervalDag

variable {α : Type} [BitPattern α]

namespace Expression

/-- Two expressions are alike if their kinds agree and their operands are alike one by one, once those of the second
are put into an order in which they can be compared. -/
inductive Alike : Expression α → Expression α → Prop
  | node {kind kind' : Kind α} {activity activity' : Interval α} {es es' ordered : List (Expression α)}
      (hkind : kind.Agrees kind') (horder : kind.Rearranges kind' es' ordered) (h : List.Forall₂ Alike es ordered) :
      Alike (.node kind activity es) (.node kind' activity' es')

mutual

/-- The words that the digest of an expression is mixed from. -/
def feed (mix : List UInt64 → UInt64) : Expression α → List UInt64
  | .node kind _ es => kind.feed (mixAll mix es)

/-- The digests of expressions. -/
def mixAll (mix : List UInt64 → UInt64) : List (Expression α) → List UInt64
  | [] => []
  | e :: es => mix (feed mix e) :: mixAll mix es

end

/-- All that is fed on the way to the digest of an expression. -/
def fed (mix : List UInt64 → UInt64) (e : Expression α) : Set (List UInt64) := {ws | ∃ p, Part p e ∧ feed mix p = ws}

/-- The numbers of all variables fit into words. -/
def NumbersFit (e : Expression α) : Prop := ∀ kind activity es, Part (.node kind activity es) e → kind.NumberFits

variable {mix : List UInt64 → UInt64} {e e' : Expression α}

theorem feed_node (kind : Kind α) (activity : Interval α) (es : List (Expression α)) :
    (node kind activity es).feed mix = kind.feed (es.map fun e => mix (e.feed mix)) := by
  have hmixAll : mixAll mix es = es.map fun e => mix (e.feed mix) := by
    induction es with
    | nil => rfl
    | cons e es ih => rw [mixAll, ih, List.map_cons]
  rw [feed, hmixAll]

omit [BitPattern α] in
theorem NumbersFit.operand {kind : Kind α} {activity : Interval α} {es : List (Expression α)}
    (h : NumbersFit (.node kind activity es)) (he : e ∈ es) : e.NumbersFit := fun _ _ _ hpart =>
  h _ _ _ (.operand he hpart)

theorem fed_subset_of_mem {kind : Kind α} {activity : Interval α} {es : List (Expression α)} (he : e ∈ es) :
    e.fed mix ⊆ fed mix (.node kind activity es) := by
  rintro _ ⟨p, hp, rfl⟩
  exact ⟨p, .operand he hp, rfl⟩

/-- All that is fed for a function of a leaf. -/
theorem fed_of_leaf (kind leaf : Kind α) (activity activity' : Interval α) :
    fed mix (.node kind activity [.node leaf activity' []]) = {kind.feed [mix (leaf.feed [])], leaf.feed []} := by
  refine Set.Subset.antisymm ?_ ?_
  · rintro _ ⟨p, hp, rfl⟩
    cases hp with
    | refl => exact Or.inl (feed_node _ _ _)
    | operand hd hp =>
      obtain rfl := List.mem_singleton.mp hd
      cases hp with
      | refl => exact Or.inr rfl
      | operand hd _ => cases hd
  · rintro _ (rfl | rfl)
    · exact ⟨_, .refl, feed_node _ _ _⟩
    · exact ⟨_, .operand (List.mem_singleton_self _) .refl, rfl⟩

/-- The default handlers mix what expressions feed. -/
theorem digest_eq_mix_feed [Scalar α] {handlers : Kind α → Handler α} {settings : Settings α}
    (hdefault : ∀ k, handlers k = Handler.default settings k.op) (e : Expression α) :
    e.digest handlers mix = .ok (mix (e.feed mix)) := by
  induction e using ind with
  | node kind activity es ih =>
    rw [digest, fold_node, ← digest, Checked.mapM_eq_ok ih, Checked.ok_bind, hdefault, Handler.digest_default, feed_node]

/-- **Alike expressions feed the same words.** -/
theorem Alike.feed_eq (h : e.Alike e') (hproper : e.Proper) : e.feed mix = e'.feed mix := by
  induction e using ind generalizing e' with
  | node kind activity es ih =>
    obtain ⟨hkind, horder, hall⟩ := h
    rename_i kind' activity' es' ordered
    have hdigests : ordered.map (fun e => mix (e.feed mix)) = es.map fun e => mix (e.feed mix) := by
      rw [← List.forall₂_eq_eq_eq, List.forall₂_map_left_iff, List.forall₂_map_right_iff]
      rw [List.forall₂_iff_zip] at hall ⊢
      refine ⟨hall.1.symm, fun {d' d} hpair => congrArg mix ?_⟩
      have hpair : (d, d') ∈ es.zip ordered := List.zip_swap ordered es ▸ List.mem_map_of_mem hpair
      have hd := (List.of_mem_zip hpair).1
      exact (ih d hd (hall.2 hpair) (hproper.operand hd)).symm
    have horder := horder.map fun e => mix (e.feed mix)
    rw [hdigests] at horder
    rw [feed_node, feed_node, hkind.feed_eq horder]

/-- **Expressions that feed the same words are alike**, if no two lists of words that are fed on the way are mixed to
one word. -/
theorem alike_of_feed_eq (hmix : Set.InjOn mix (e.fed mix ∪ e'.fed mix)) (hproper : e.Proper) (hproper' : e'.Proper)
    (hfits : e.NumbersFit) (hfits' : e'.NumbersFit) (h : e.feed mix = e'.feed mix) : e.Alike e' := by
  induction e using ind generalizing e' with
  | node kind activity es ih =>
    obtain ⟨kind', activity', es'⟩ := e'
    rw [feed_node, feed_node, Kind.feed_eq_feed_iff (hfits _ _ _ .refl) (hfits' _ _ _ .refl)] at h
    obtain ⟨hkind, hdigests⟩ := h
    obtain ⟨ordered, horder, hordered⟩ := Kind.exists_rearranges_of_map hdigests
      (by rw [List.length_map]; exact hproper _ _ _ .refl) (hproper' _ _ _ .refl)
    have hlength : ordered.length = es.length := by
      rw [← List.length_map, hordered, List.length_map]
    rw [← List.forall₂_eq_eq_eq, List.forall₂_map_left_iff, List.forall₂_map_right_iff, List.forall₂_iff_zip]
      at hordered
    refine .node hkind horder (List.forall₂_iff_zip.mpr ⟨hlength.symm, fun {d d'} hpair => ?_⟩)
    have hd : d ∈ es := (List.of_mem_zip hpair).1
    have hd' : d' ∈ es' := horder.subset (hlength ▸ hproper _ _ _ .refl) d' (List.of_mem_zip hpair).2
    have hwords : mix (d'.feed mix) = mix (d.feed mix) :=
      hordered.2 (List.zip_swap es ordered ▸ List.mem_map_of_mem hpair)
    -- what operands feed is among what is fed on the way
    have hsubset : d.fed mix ∪ d'.fed mix ⊆ fed mix (.node kind activity es) ∪ fed mix (.node kind' activity' es') :=
      Set.union_subset_union (fed_subset_of_mem hd) (fed_subset_of_mem hd')
    have hfeeds := hmix (hsubset (Or.inl ⟨d, .refl, rfl⟩)) (hsubset (Or.inr ⟨d', .refl, rfl⟩)) hwords.symm
    exact ih d hd (hmix.mono hsubset) (hproper.operand hd) (hproper'.operand hd') (hfits.operand hd)
      (hfits'.operand hd') hfeeds

end Expression

/-! ### Digests -/

deriving instance DecidableEq for Kind

namespace Commons

variable [Scalar α] [NumberText α] {s s' : Commons α} {a b : NodeId}

/-- The numbers of the variables below a node fit into words. -/
def NumbersFit (s : Commons α) (root : NodeId) : Prop :=
  ∀ n v, s.graph.arena.Below n root → s.graph.kind n = .ok (.var v) → v < UInt64.size

theorem Exhibits.numbersFit (h : s.Exhibits a) (hfits : s.NumbersFit a) :
    (s.graph.unfold h.acyclic a).NumbersFit := by
  intro kind activity es hpart
  obtain ⟨n, hn, hkind, -⟩ := h.exists_kind_of_part hpart
  cases kind with
  | var v => exact hfits n v hn hkind
  | _ => trivial

theorem Exhibits.map_digest (h : s.Exhibits a) (mix : List UInt64 → UInt64) :
    Prod.snd <$> s.graph.digest mix a = .ok (mix ((s.graph.unfold h.acyclic a).feed mix)) := by
  obtain ⟨settings, hdefault⟩ := h.exists_settings
  rw [h.analysable.map_digest mix]
  exact Expression.digest_eq_mix_feed hdefault _

/-- **Digests identify expressions up to the order of terms and factors.** Take two roots, in states of two graphs. Each
has a digest, whatever words are mixed to. If their expressions, with what is shared written out, are alike, the digests
are equal. If all words that are fed on the way are mixed to words of their own and the digests are equal, the
expressions are alike. -/
theorem digest_eq_iff_alike (ha : s.Exhibits a) (hb : s'.Exhibits b) (mix : List UInt64 → UInt64) :
    ∃ wa wb, Prod.snd <$> s.graph.digest mix a = .ok wa ∧ Prod.snd <$> s'.graph.digest mix b = .ok wb ∧
      ((s.graph.unfold ha.acyclic a).Alike (s'.graph.unfold hb.acyclic b) → wa = wb) ∧
      (s.NumbersFit a → s'.NumbersFit b →
        Set.InjOn mix ((s.graph.unfold ha.acyclic a).fed mix ∪ (s'.graph.unfold hb.acyclic b).fed mix) → wa = wb →
        (s.graph.unfold ha.acyclic a).Alike (s'.graph.unfold hb.acyclic b)) := by
  refine ⟨_, _, ha.map_digest mix, hb.map_digest mix, fun halike => ?_, fun hfits hfits' hmix hwords => ?_⟩
  · rw [halike.feed_eq ha.proper]
  · refine Expression.alike_of_feed_eq hmix ha.proper hb.proper (ha.numbersFit hfits) (hb.numbersFit hfits')
      (hmix ?_ ?_ hwords)
    · exact Or.inl ⟨_, .refl, rfl⟩
    · exact Or.inr ⟨_, .refl, rfl⟩

/-- A product that has an operand in common with its other operand, and one over two copies, with terms and factors in
another order. The copies feed two lists of words on the way, which are mixed to two words. -/
theorem digest_eq_iff_alike_of_copies :
    let shared : List (Command Float) :=
      [.work (.request (.var 0)), .work (.request (.apply .exp 0 rfl)),
        .work (.request (.add (.sum [2, 3] 1) [0, 1])), .work (.request (.add (.product 4) [1, 2]))]
    let copied : List (Command Float) :=
      [.work (.request (.var 0)), .work (.request (.apply .exp 0 rfl)), .work (.request (.apply .exp 0 rfl)),
        .work (.request (.add (.sum [3, 2] 1) [1, 0])), .work (.request (.add (.product 4) [3, 2]))]
    ∃ s answers s' answers', (new default 0 (.ofList [])).serveAll shared = .ok (s, answers) ∧
      (new default 0 (.ofList [])).serveAll copied = .ok (s', answers') ∧
      (∃ w, Prod.snd <$> s.graph.digest Digest.ofWords 3 = .ok w ∧
        Prod.snd <$> s'.graph.digest Digest.ofWords 4 = .ok w) ∧
      ∃ ha : s.Exhibits 1, ∃ hb : s'.Exhibits 2,
        (s.graph.unfold ha.acyclic 1).Alike (s'.graph.unfold hb.acyclic 2) := by
  intro shared copied
  have hcs : (new default 0 (.ofList [])).OwnsAll shared := by decide +kernel
  have hcs' : (new default 0 (.ofList [])).OwnsAll copied := by decide +kernel
  obtain ⟨s, answers, hrun, h, hread⟩ := exists_exhibits default 0 (.ofList []) hcs (by simp [shared]) 3
    (f := fun g => ([0, 1, 2, 3].map g.kindAt, [0, 1, 2, 3].map g.arena.operands))
    (b := ([.var 0, .exp, .sum [2, 3] 1, .product 4], [[], [0], [0, 1], [1, 2]])) (by decide +kernel)
  obtain ⟨s', answers', hrun', h', hread'⟩ := exists_exhibits default 0 (.ofList []) hcs' (by simp [copied]) 4
    (f := fun g => ([0, 1, 2, 3, 4].map g.kindAt, [0, 1, 2, 3, 4].map g.arena.operands))
    (b := ([.var 0, .exp, .exp, .sum [3, 2] 1, .product 4], [[], [0], [0], [1, 0], [3, 2]])) (by decide +kernel)
  simp only [List.map_cons, List.map_nil, Prod.mk.injEq, List.cons.injEq, and_true] at hread hread'
  obtain ⟨⟨hk₀, hk₁, hk₂, hk₃⟩, ho₀, ho₁, ho₂, ho₃⟩ := hread
  obtain ⟨⟨hk₀', hk₁', hk₂', hk₃', hk₄'⟩, ho₀', ho₁', ho₂', ho₃', ho₄'⟩ := hread'
  have hx := Graph.unfold_of_kindAt h.acyclic hk₀ ho₀
  have hx' := Graph.unfold_of_kindAt h'.acyclic hk₀' ho₀'
  have hexp := Graph.unfold_of_kindAt h.acyclic hk₁ ho₁
  have halike₀ : (s.graph.unfold h.acyclic 0).Alike (s'.graph.unfold h'.acyclic 0) := by
    rw [hx, hx']
    exact .node (.var 0) rfl .nil
  have halike₁ : ∀ n, s'.graph.kindAt n = .exp → s'.graph.arena.operands n = [0] →
      (s.graph.unfold h.acyclic 1).Alike (s'.graph.unfold h'.acyclic n) := fun n hk ho => by
    rw [hexp, Graph.unfold_of_kindAt h'.acyclic hk ho]
    exact .node .exp rfl (.cons halike₀ .nil)
  have halike₂ : (s.graph.unfold h.acyclic 2).Alike (s'.graph.unfold h'.acyclic 3) := by
    have horder : (Kind.sum [2, 3] (1 : Float)).Rearranges (.sum [3, 2] 1) [s'.graph.unfold h'.acyclic 1,
        s'.graph.unfold h'.acyclic 0] [s'.graph.unfold h'.acyclic 0, s'.graph.unfold h'.acyclic 1] :=
      List.Perm.swap _ _ _
    rw [Graph.unfold_of_kindAt h.acyclic hk₂ ho₂, Graph.unfold_of_kindAt h'.acyclic hk₃' ho₃']
    exact .node (.sum rfl) horder (.cons halike₀ (.cons (halike₁ 1 hk₁' ho₁') .nil))
  have halike₃ : (s.graph.unfold h.acyclic 3).Alike (s'.graph.unfold h'.acyclic 4) := by
    rw [Graph.unfold_of_kindAt h.acyclic hk₃ ho₃, Graph.unfold_of_kindAt h'.acyclic hk₄' ho₄']
    exact .node (.product rfl) (List.Perm.swap _ _ _) (.cons (halike₁ 2 hk₂' ho₂') (.cons halike₂ .nil))
  obtain ⟨w, w', hw, hw', hequal, -⟩ := digest_eq_iff_alike h h' Digest.ofWords
  obtain rfl := hequal halike₃
  refine ⟨s, answers, s', answers', hrun, hrun', ⟨w, hw, hw'⟩, ?_⟩
  have hcopy := h.of_below (n := 1) (Arena.IsOperand.below (by simp [Arena.IsOperand, ho₃]))
  have hcopy' := h'.of_below (n := 2) (Arena.IsOperand.below (by simp [Arena.IsOperand, ho₄']))
  have hfits : ∀ {s : Commons Float} {n}, s.Exhibits n → s.graph.kindAt n = .exp → s.graph.arena.operands n = [0] →
      s.graph.kindAt 0 = .var 0 → s.graph.arena.operands 0 = [] → s.NumbersFit n := by
    intro s n h hn ho hx hox m v hm hv
    have hkind := Except.ok.inj ((Graph.kind_eq_ok (h.isAlive m hm)).symm.trans hv)
    rcases Arena.eq_or_eq_of_below ho hox hm with rfl | rfl
    · cases hn.symm.trans hkind
    · cases hx.symm.trans hkind
      decide
  obtain ⟨w, w', hw, hw', hequal, hiff⟩ := digest_eq_iff_alike hcopy hcopy' Digest.ofWords
  refine ⟨hcopy, hcopy', hiff (hfits hcopy hk₁ ho₁ hk₀ ho₀) (hfits hcopy' hk₂' ho₂' hk₀' ho₀') ?_
    (hequal (halike₁ 2 hk₂' ho₂'))⟩
  -- the copies feed the same two lists of words
  rw [hexp, List.map_singleton, hx, Graph.unfold_of_kindAt h'.acyclic hk₂' ho₂', List.map_singleton, hx']
  rw [List.map_nil, List.map_nil, Expression.fed_of_leaf, Expression.fed_of_leaf, Set.union_self]
  refine Set.injOn_pair.mpr fun heq => absurd heq ?_
  decide +kernel

end Commons

end IntervalDag
