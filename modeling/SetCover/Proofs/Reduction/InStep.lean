import Mathlib.Data.List.Find
import SetCover.Proofs.Matrix.Totality
import SetCover.Proofs.Reduction.Compared

/-!
# Reductions side by side

`InStep p m n` says that `m` and `n` are valid, compared and marked alike and have the same
elements, costs and active rows and columns, or do not differ at all unless `p`.  A reduction does
the same to both: it makes the same deletions and selections, reports the same, and what it leaves
is in step again.  With `m = n` this says that a reduction cannot fail, whatever the comparator is.
For different matrices `p` has to say that the comparator does not see the difference.
-/

namespace SetCover

namespace Matrix

variable {m n k k' : Matrix} {J : List Deletion} {d : Dimension} {i c r s : Nat} {is : List Nat}
variable {p : Prop} {may : Comparator}

/-- Both matrices can be reduced and have the same elements, or do not differ at all unless `p`. -/
structure InStep (p : Prop) (m n : Matrix) : Prop where
  sameElements : m.SameElements n
  marks_eq : n.marks = m.marks
  isValid_left : m.IsValid
  isValid_right : n.IsValid
  isCompared_left : m.IsCompared
  isCompared_right : n.IsCompared
  eq_or : m = n ∨ p

theorem inStep_refl (hm : m.IsValid) (hc : m.IsCompared) : InStep p m m :=
  ⟨.refl m, rfl, hm, hm, hc, hc, Or.inl rfl⟩

namespace InStep

theorem symm (h : InStep p m n) : InStep p n m :=
  ⟨h.sameElements.symm, h.marks_eq.symm, h.isValid_right, h.isValid_left, h.isCompared_right,
    h.isCompared_left, h.eq_or.imp_left Eq.symm⟩

theorem looksLike (h : InStep p m n) : m.LooksLike n :=
  h.sameElements.looksLike h.isValid_left h.isValid_right

/-- Matrices that go on alike and keep what is clean stay in step. -/
theorem next (h : InStep p m n) (hsame : k.SameElements k') (hmarks : k'.marks = k.marks)
    (hk : m.Advances k) (hk' : n.Advances k') (hclean : KeepsClean .row m k)
    (hclean' : KeepsClean .row n k') (heq : m = n → k = k') : InStep p k k' :=
  ⟨hsame, hmarks, hk.isValid h.isValid_left, hk'.isValid h.isValid_right,
    h.isCompared_left.of_keepsClean hclean, h.isCompared_right.of_keepsClean hclean',
    h.eq_or.imp_left heq⟩

/-- Matrices that differ in dirty flags only are in step, if each is with itself. -/
theorem of_resembles (h : m.Resembles n) (hm : InStep True m m) (hn : InStep True n n) :
    InStep True m n :=
  ⟨h.similar.sameElements, h.marks_eq, hm.isValid_left, hn.isValid_left, hm.isCompared_left,
    hn.isCompared_left, Or.inr trivial⟩

theorem isMarked_eq (h : InStep p m n) : n.isMarked = m.isMarked := by
  funext d i
  rw [isMarked, isMarked, h.marks_eq]

theorem isDeleted_eq (h : InStep p m n) (hi : i < (m.headers.get d).size) :
    n.isDeleted d i = m.isDeleted d i :=
  (h.sameElements.isDeleted_eq h.isValid_left h.isValid_right hi).symm

theorem unmarked (h : InStep p m n) (hm : m.Unmarked) : n.Unmarked := by
  intro d
  rw [h.marks_eq, hm d, h.sameElements.size_eq]

/-! ### Marks and deletions -/

/-- Marks can be set to the same in both. -/
theorem setMarks (h : InStep p m n) (marks : PerDimension Marks) :
    InStep p { m with marks } { n with marks } := by
  have hsimilar : ∀ k : Matrix, k.Similar { k with marks } := fun k =>
    ⟨rfl, rfl, rfl, fun _ => .refl _⟩
  have hm := hsimilar m
  have hn := hsimilar n
  refine h.next ((hm.sameElements.symm.trans h.sameElements).trans hn.sameElements) rfl
    (hm.deletes rfl).advances (hn.deletes rfl).advances (.of_headers_eq hm rfl)
    (.of_headers_eq hn rfl) ?_
  rintro rfl
  rfl

theorem mark (h : InStep p m n) (d : Dimension) (i : Nat) : InStep p (m.mark d i) (n.mark d i) := by
  rw [Matrix.mark, Matrix.mark, h.marks_eq]
  exact h.setMarks _

theorem clearMarks (h : InStep p m n) (d : Dimension) :
    InStep p (m.clearMarks d) (n.clearMarks d) := by
  rw [Matrix.clearMarks, Matrix.clearMarks, h.marks_eq]
  exact h.setMarks _

theorem delete (h : InStep p m n) (hi : i ∈ m.active d) :
    Together (InStep p) (m.delete d i) (n.delete d i) := by
  obtain ⟨k, hk⟩ := h.isValid_left.exists_delete_eq_ok hi
  rw [h.sameElements.active_eq] at hi
  obtain ⟨k', hk'⟩ := h.isValid_right.exists_delete_eq_ok hi
  refine ⟨k, k', hk, hk', h.next
    (h.sameElements.delete h.isValid_left h.isValid_right hk hk') ?_ (deletes_of_delete hk).advances
    (deletes_of_delete hk').advances (h.isValid_left.keepsClean_of_delete hk _)
    (h.isValid_right.keepsClean_of_delete hk' _) ?_⟩
  · rw [(deleted_of_delete hk).marks_eq, (deleted_of_delete hk').marks_eq, h.marks_eq]
  · rintro rfl
    exact Except.ok.inj (hk.symm.trans hk')

theorem deleteAll (h : InStep p m n) (hnodup : is.Nodup) (his : ∀ i ∈ is, i ∈ m.active d) :
    Together (InStep p) (m.deleteAll d is) (n.deleteAll d is) := by
  induction is generalizing m n with
  | nil => exact .ok h
  | cons i is ih =>
      obtain ⟨hnot, hnodup⟩ := List.nodup_cons.1 hnodup
      obtain ⟨a, b, ha, hb, hab⟩ := h.delete (his i (by simp))
      rw [Matrix.deleteAll, Matrix.deleteAll, ha, hb]
      refine ih hab hnodup fun j hj => ?_
      rw [(Trail.of_delete ha).mem_active_iff h.isValid_left]
      refine ⟨his j (List.mem_cons_of_mem i hj), ?_⟩
      simpa using fun hji : j = i => hnot (hji ▸ hj)

theorem select (h : InStep p m n) (hc : c ∈ m.active .column) :
    Traced.Together (InStep p) (m.select c) (n.select c) := by
  obtain ⟨m', k, hm', hk, hm⟩ := h.isValid_left.exists_select_eq_ok hc
  obtain ⟨n', l, hn', hl, hn⟩ := h.isValid_right.exists_select_eq_ok (h.sameElements.active_eq ▸ hc)
  have hactive := (h.isValid_left.count_of_deleteAll hc hm').1
  have hlt := h.isValid_left.lt_size_of_mem_active hc
  obtain ⟨a, b, ha, hb, hab⟩ : Together (InStep p) (m.deleteAll .row (m.line .column c))
      (n.deleteAll .row (m.line .column c)) :=
    h.deleteAll (h.isValid_left.nodup_line hlt)
      fun r hr => h.isValid_left.mem_active_of_mem_line hc hr
  rw [h.looksLike.line_eq_of_mem_active hc] at hb
  cases ha.symm.trans hm'
  cases hb.symm.trans hn'
  obtain ⟨a, b, ha, hb, hab⟩ := hab.delete hactive
  cases ha.symm.trans hk
  cases hb.symm.trans hl
  exact ⟨k, l, _, hm, hn, hab⟩

/-! ### Thinning the rows -/

theorem dominatedRows_eq (h : InStep p m n) (hr : r ∈ m.active .row) :
    n.dominatedRows r = m.dominatedRows r := by
  rw [dominatedRows_eq_containingRows h.isValid_left h.isCompared_left hr,
    dominatedRows_eq_containingRows h.isValid_right h.isCompared_right
      (h.sameElements.active_eq ▸ hr),
    containingRows_congr h.looksLike h.marks_eq hr]

theorem dropRowsFor (h : InStep p m n) (hnodup : is.Nodup) (his : ∀ s ∈ is, s ∈ m.active .row) :
    Traced.Together (InStep p) (m.dropRowsFor r is) (n.dropRowsFor r is) := by
  induction is generalizing m n with
  | nil => exact .pure h
  | cons s is ih =>
      obtain ⟨hnot, hnodup⟩ := List.nodup_cons.1 hnodup
      have hmark := similar_mark m .row s
      have hs : s ∈ (m.mark .row s).active .row := hmark.active_eq ▸ his s (by simp)
      have hdelete := Traced.Together.lift ((h.mark .row s).delete hs)
      refine (Traced.Together.emit _).bind fun _ _ _ _ => hdelete.bind fun a b ha hab => ?_
      rw [Traced.result_liftM] at ha
      refine ih hab hnodup fun j hj => ?_
      rw [(Trail.of_delete ha).mem_active_iff (h.mark .row s).isValid_left, ← hmark.active_eq]
      refine ⟨his j (List.mem_cons_of_mem s hj), ?_⟩
      simpa using fun hjs : j = s => hnot (hjs ▸ hj)

theorem nodup_dominatedRows (hm : m.WellFormed J) (hr : r ∈ m.active .row) :
    (m.dominatedRows r).Nodup ∧ ∀ s ∈ m.dominatedRows r, s ∈ m.active .row := by
  rw [dominatedRows]
  split
  · simp
  · rename_i pivot hpivot
    have hactive := hm.mem_active_of_mem_line hr (List.minOn?_mem hpivot)
    refine ⟨(hm.nodup_line (hm.lt_size_of_mem_active hactive)).filter _, fun s hs => ?_⟩
    exact hm.mem_active_of_mem_line hactive (List.mem_filter.1 hs).1

theorem thinRows (h : InStep p m n) (changed : Bool) (hm : Thinning m is) :
    Traced.Together (fun a b => b.1 = a.1 ∧ InStep p a.2 b.2) (m.thinRows changed is)
      (n.thinRows changed is) := by
  induction is generalizing m n changed with
  | nil => exact .pure ⟨rfl, h⟩
  | cons r is ih =>
      rw [Matrix.thinRows, Matrix.thinRows, h.isMarked_eq]
      by_cases hmarked : m.isMarked .row r
      · rw [if_pos hmarked, if_pos hmarked]
        exact ih h changed hm.tail
      · rw [if_neg hmarked, if_neg hmarked]
        have hr := hm.mem_active hmarked
        obtain ⟨hnodup, hactive⟩ := nodup_dominatedRows h.isValid_left hr
        dsimp only
        rw [h.dominatedRows_eq hr]
        refine (h.dropRowsFor hnodup hactive).bind fun a b ha hab => ?_
        exact ih hab _ (hm.next hmarked ha)

end InStep

theorem exists_cleanAll_eq_ok (his : ∀ i ∈ is, i < (m.headers.get d).size) :
    ∃ k, m.cleanAll d is = .ok k := by
  induction is generalizing m with
  | nil => exact ⟨m, rfl⟩
  | cons i is ih =>
      obtain ⟨l, hl⟩ : ∃ l, (m.headers.get d).clean i = .ok l := by
        rw [HeaderRing.clean, HeaderRing.get_eq_ok_iff.2 ⟨his i (by simp), rfl⟩]
        exact ⟨_, rfl⟩
      have hsimilar := similar_modify (HeaderRing.similar_of_clean hl)
      have hclean : m.headers.tryModify d (·.clean i) = .ok (m.headers.modify d fun _ => l) :=
        PerDimension.tryModify_eq_ok_iff_exists.2 ⟨l, hl, rfl⟩
      obtain ⟨k, hk⟩ := ih (m := { m with headers := m.headers.modify d fun _ => l })
        fun j hj => by
          rw [← hsimilar.size_eq]
          exact his j (List.mem_cons_of_mem i hj)
      refine ⟨k, ?_⟩
      rw [cleanAll, hclean]
      exact hk

theorem InStep.dropDominatedRows (h : InStep p m n) (hm : m.Unmarked) :
    Traced.Together (fun a b => b.1 = a.1 ∧ InStep p a.2 b.2) m.dropDominatedRows
      n.dropDominatedRows := by
  have hready : m.IsReady := ⟨h.isValid_left, hm⟩
  obtain ⟨⟨changed, a⟩, ⟨changed', b⟩, events, ha, hb, hchanged, hab⟩ :=
    h.thinRows false (hready.thinning h.isCompared_left)
  have hclear := hab.clearMarks .row
  obtain ⟨k, hk⟩ : ∃ k, (a.clearMarks .row).cleanAll .row ((a.clearMarks .row).active .row) =
      .ok k :=
    exists_cleanAll_eq_ok fun r hr => hclear.isValid_left.lt_size_of_mem_active hr
  obtain ⟨k', hk'⟩ : ∃ k', (b.clearMarks .row).cleanAll .row ((b.clearMarks .row).active .row) =
      .ok k' :=
    exists_cleanAll_eq_ok fun r hr => hclear.isValid_right.lt_size_of_mem_active hr
  have hdrop : m.dropDominatedRows = .ok ((changed, k), events) := by
    refine Traced.bind_eq_ok_iff.2 ⟨_, events, [], ha, ?_, (List.append_nil _).symm⟩
    dsimp only
    rw [hk]
    rfl
  have hdrop' : n.dropDominatedRows = .ok ((changed', k'), events) := by
    rw [h.sameElements.active_eq] at hb
    refine Traced.bind_eq_ok_iff.2 ⟨_, events, [], hb, ?_, (List.append_nil _).symm⟩
    dsimp only
    rw [hk']
    rfl
  obtain ⟨hsimilar, hjournal, hmarks⟩ := similar_of_cleanAll hk
  obtain ⟨hsimilar', hjournal', hmarks'⟩ := similar_of_cleanAll hk'
  refine ⟨_, _, events, hdrop, hdrop', hchanged,
    (hsimilar.sameElements.symm.trans hclear.sameElements).trans hsimilar'.sameElements,
    ?_, ?_, ?_, ?_, ?_, ?_⟩
  · rw [hmarks', hmarks, hclear.marks_eq]
  · exact (hsimilar.deletes hjournal).advances.isValid hclear.isValid_left
  · exact (hsimilar'.deletes hjournal').advances.isValid hclear.isValid_right
  · exact IsReady.isCompared_of_dropDominatedRows ⟨h.isValid_left, hm⟩ h.isCompared_left
      (congrArg Traced.result hdrop)
  · exact IsReady.isCompared_of_dropDominatedRows ⟨h.isValid_right, h.unmarked hm⟩
      h.isCompared_right (congrArg Traced.result hdrop')
  · refine h.eq_or.imp_left ?_
    rintro rfl
    cases hdrop.symm.trans hdrop'
    rfl

end Matrix

/-! ### Whole reductions -/

/-- The comparator only looks at what follows from the active rows and columns. -/
def Comparator.IsStable (may : Comparator) : Prop := ∀ m n : Matrix, m.LooksLike n → may m = may n

theorem DominanceRule.isStable_comparator (rule : DominanceRule) : rule.comparator.IsStable := by
  intro m n h
  cases rule with
  | costAware =>
      funext c b
      simp only [comparator, h.costOf_eq]
  | ignoreCost => rfl

namespace Reduction

open SetCover.Matrix

variable {x y : Reduction} {p : Prop} {may : Comparator} {c : Nat} {cs rs : List Nat}

/-- The matrices are in step, and the same columns are selected. -/
structure InStep (p : Prop) (x y : Reduction) : Prop where
  matrix : Matrix.InStep p x.matrix y.matrix
  selected_eq : y.selected = x.selected

theorem InStep.mark (h : InStep p x y) (d : Dimension) (i : Nat) :
    InStep p (x.mark d i) (y.mark d i) :=
  ⟨h.matrix.mark d i, h.selected_eq⟩

theorem InStep.clearMarks (h : InStep p x y) (d : Dimension) :
    InStep p (x.clearMarks d) (y.clearMarks d) :=
  ⟨h.matrix.clearMarks d, h.selected_eq⟩

theorem InStep.drop (h : InStep p x y) (hc : c ∈ x.matrix.active .column) :
    Together (InStep p) (x.drop c) (y.drop c) := by
  obtain ⟨a, b, ha, hb, hab⟩ := h.matrix.delete hc
  exact ⟨_, _, drop_eq_ok_iff.2 ⟨a, ha, rfl⟩, drop_eq_ok_iff.2 ⟨b, hb, rfl⟩, hab, h.selected_eq⟩

theorem InStep.select (h : InStep p x y) (hc : c ∈ x.matrix.active .column) :
    Traced.Together (InStep p) (x.select c) (y.select c) := by
  refine (h.matrix.select hc).bind fun a b _ hab => .pure ⟨hab, ?_⟩
  rw [h.selected_eq]

/-- What is still to be dropped stays active until it is its turn. -/
theorem mem_active_of_drop {z : Reduction} (hx : x.matrix.IsValid) (hz : x.drop c = .ok z)
    (hnodup : (c :: cs).Nodup) (hcs : ∀ b ∈ c :: cs, b ∈ x.matrix.active .column) :
    ∀ b ∈ cs, b ∈ z.matrix.active .column := by
  obtain ⟨k, hk, rfl⟩ := drop_eq_ok_iff.1 hz
  intro b hb
  rw [(Trail.of_delete hk).mem_active_iff hx]
  refine ⟨hcs b (List.mem_cons_of_mem c hb), ?_⟩
  simpa using fun hbc : b = c => (List.nodup_cons.1 hnodup).1 (hbc ▸ hb)

theorem InStep.dropAll (h : InStep p x y) (hnodup : cs.Nodup)
    (hcs : ∀ c ∈ cs, c ∈ x.matrix.active .column) :
    Together (InStep p) (x.dropAll cs) (y.dropAll cs) := by
  induction cs generalizing x y with
  | nil => exact .ok h
  | cons c cs ih =>
      refine (h.drop (hcs c (by simp))).bind fun a b ha hab => ?_
      exact ih hab (List.nodup_cons.1 hnodup).2
        (mem_active_of_drop h.matrix.isValid_left ha hnodup hcs)

theorem InStep.dominatingColumn?_eq (h : InStep p x y) (hmay : p → may.IsStable)
    (hc : c ∈ x.matrix.active .column) :
    y.matrix.dominatingColumn? may c = x.matrix.dominatingColumn? may c := by
  rcases h.matrix.eq_or with heq | hp
  · rw [heq]
  · have hlooks := h.matrix.looksLike
    have hc : x.matrix.Seen .column c := .active hc
    have hpivot := hlooks.minOn?_line_eq hc
    dsimp only [Dimension.other] at hpivot
    rw [dominatingColumn?, dominatingColumn?, ← hpivot]
    split
    · rfl
    · rename_i pivot hmin
      have hseen : x.matrix.Seen .row pivot := .line hc (List.minOn?_mem hmin)
      rw [← hlooks.line_eq .row pivot hseen]
      refine List.find?_congr fun d hd => ?_
      have hd : x.matrix.Seen .column d := .line hseen hd
      rw [h.matrix.isMarked_eq, ← hlooks.isSubline_eq hc hd, ← hlooks.count_eq .column c hc,
        ← hlooks.count_eq .column d hd, hmay hp _ _ hlooks]

theorem InStep.thinColumns (h : InStep p x y) (hmay : p → may.IsStable) (changed : Bool)
    (hnodup : cs.Nodup) (hcs : ∀ c ∈ cs, c ∈ x.matrix.active .column) :
    Traced.Together (fun a b => b.1 = a.1 ∧ InStep p a.2 b.2) (x.thinColumns may changed cs)
      (y.thinColumns may changed cs) := by
  induction cs generalizing x y changed with
  | nil => exact .pure ⟨rfl, h⟩
  | cons c cs ih =>
      have hrest := (List.nodup_cons.1 hnodup).2
      rw [Reduction.thinColumns, Reduction.thinColumns, h.matrix.isMarked_eq,
        h.dominatingColumn?_eq hmay (hcs c (by simp))]
      split
      · have hmark := similar_mark x.matrix .column c
        have hcs' : ∀ b ∈ c :: cs, b ∈ (x.mark .column c).matrix.active .column := fun b hb =>
          hmark.active_eq ▸ hcs b hb
        refine (Traced.Together.emit _).bind fun _ _ _ _ => ?_
        refine (Traced.Together.lift ((h.mark .column c).drop (hcs' c (by simp)))).bind ?_
        intro a b ha hab
        rw [Traced.result_liftM] at ha
        exact ih hab true hrest
          (mem_active_of_drop (h.mark .column c).matrix.isValid_left ha hnodup hcs')
      · exact ih h changed hrest fun b hb => hcs b (List.mem_cons_of_mem c hb)

theorem InStep.selectSingletons (h : InStep p x y) (changed : Bool)
    (hrs : ∀ r ∈ rs, r < x.matrix.numRows) :
    Traced.Together (fun a b => b.1 = a.1 ∧ InStep p a.2 b.2) (x.selectSingletons changed rs)
      (y.selectSingletons changed rs) := by
  induction rs generalizing x y changed with
  | nil => exact .pure ⟨rfl, h⟩
  | cons r rs ih =>
      have hrest : ∀ r' ∈ rs, r' < x.matrix.numRows := fun r' hr' =>
        hrs r' (List.mem_cons_of_mem r hr')
      rw [Reduction.selectSingletons, Reduction.selectSingletons,
        h.matrix.isDeleted_eq (hrs r (by simp))]
      split
      · exact ih h changed hrest
      · rename_i hdeleted
        have hr := (h.matrix.isValid_left.isDeleted_iff (hrs r (by simp))).1
          (Bool.eq_false_iff.2 hdeleted)
        rw [← h.matrix.looksLike.line_eq_of_mem_active hr]
        cases hhead : (x.matrix.line .row r).head? with
        | none => exact ih h changed hrest
        | some c =>
            have hc := h.matrix.isValid_left.mem_active_of_mem_line hr (List.mem_of_head? hhead)
            have hmark := similar_mark x.matrix .column c
            dsimp only
            rw [h.matrix.isMarked_eq]
            split
            · exact ih h changed hrest
            · have hselect := (h.mark .column c).select (c := c) (hmark.active_eq ▸ hc)
              refine (Traced.Together.emit _).bind fun _ _ _ _ => hselect.bind fun a b ha hab => ?_
              obtain ⟨k, hk, rfl⟩ := select_eq_ok_iff.1 ha
              refine ih hab true fun r' hr' => ?_
              have hcells := (deletes_of_select hk).1.trail.sameCells
              rw [hcells.numRows_eq]
              exact hrest r' hr'

/-- The matrices are in step, the same columns are selected, and no phase is at work. -/
structure Abreast (p : Prop) (x y : Reduction) : Prop extends InStep p x y where
  unmarked : x.matrix.Unmarked

namespace Abreast

theorem isReady (h : Abreast p x y) : x.matrix.IsReady := ⟨h.matrix.isValid_left, h.unmarked⟩

theorem dropDominatedColumns (h : Abreast p x y) (hmay : p → may.IsStable) :
    Traced.Together (fun a b => b.1 = a.1 ∧ Abreast p a.2 b.2) (x.dropDominatedColumns may)
      (y.dropDominatedColumns may) := by
  have hvalid := h.matrix.isValid_left
  suffices hstep : Traced.Together (fun a b => b.1 = a.1 ∧ InStep p a.2 b.2)
      (x.dropDominatedColumns may) (y.dropDominatedColumns may) by
    refine hstep.imp fun a b ha hab => ⟨hab.1, hab.2, ?_⟩
    obtain ⟨hreduces, hmarks⟩ := reduces_of_dropDominatedColumns h.isReady ha
    exact (h.isReady.advances hreduces.advances hmarks).unmarked
  rw [Reduction.dropDominatedColumns, Reduction.dropDominatedColumns,
    ← h.matrix.looksLike.filter_active_eq .column (· == 0)]
  have hdrop := h.toInStep.dropAll ((hvalid.nodup_active .column).filter
    fun c => x.matrix.count .column c == 0) fun c hc => (List.mem_filter.1 hc).1
  refine (Traced.Together.lift hdrop).bind fun a b ha hab => ?_
  rw [← hab.matrix.sameElements.active_eq]
  refine (hab.thinColumns hmay _ (hab.matrix.isValid_left.nodup_active _) fun c hc => hc).bind ?_
  rintro ⟨changed, a'⟩ ⟨changed', b'⟩ - ⟨hchanged, hab'⟩
  exact .pure ⟨hchanged, hab'.clearMarks .column⟩

theorem selectEssential (h : Abreast p x y) :
    Traced.Together (fun a b => b.1 = a.1 ∧ Abreast p a.2 b.2) x.selectEssential
      y.selectEssential := by
  suffices hstep : Traced.Together (fun a b => b.1 = a.1 ∧ InStep p a.2 b.2)
      x.selectEssential y.selectEssential by
    refine hstep.imp fun a b ha hab => ⟨hab.1, hab.2, ?_⟩
    obtain ⟨hreduces, hmarks⟩ := reduces_of_selectEssential h.isReady ha fun _ _ _ => true
    exact (h.isReady.advances hreduces.advances hmarks).unmarked
  rw [Reduction.selectEssential, Reduction.selectEssential,
    ← h.matrix.looksLike.filter_active_eq .row (· == 1)]
  refine (h.toInStep.selectSingletons false fun r hr => ?_).bind ?_
  · exact h.matrix.isValid_left.lt_size_of_mem_active (List.mem_filter.1 hr).1
  · rintro ⟨changed, a⟩ ⟨changed', b⟩ - ⟨hchanged, hab⟩
    exact .pure ⟨hchanged, hab.clearMarks .column⟩

theorem dropDominatedRows (h : Abreast p x y) :
    Traced.Together (fun a b => b.1 = a.1 ∧ Abreast p a.2 b.2) x.dropDominatedRows
      y.dropDominatedRows := by
  suffices hstep : Traced.Together (fun a b => b.1 = a.1 ∧ InStep p a.2 b.2)
      x.dropDominatedRows y.dropDominatedRows by
    refine hstep.imp fun a b ha hab => ⟨hab.1, hab.2, ?_⟩
    obtain ⟨hreduces, hmarks⟩ := reduces_of_dropDominatedRows h.isReady ha fun _ _ _ => true
    exact (h.isReady.advances hreduces.advances hmarks).unmarked
  refine (h.matrix.dropDominatedRows h.unmarked).bind ?_
  rintro ⟨changed, a⟩ ⟨changed', b⟩ - ⟨hchanged, hab⟩
  exact .pure ⟨hchanged, hab, h.selected_eq⟩

theorem reduce (h : Abreast p x y) (hmay : p → may.IsStable) :
    Traced.Together (fun a b => b.1 = a.1 ∧ Abreast p a.2 b.2) (x.reduce may) (y.reduce may) := by
  refine (h.dropDominatedColumns hmay).bind ?_
  rintro ⟨c₁, a₁⟩ ⟨c₁', b₁⟩ - ⟨rfl, h₁⟩
  refine h₁.selectEssential.bind ?_
  rintro ⟨c₂, a₂⟩ ⟨c₂', b₂⟩ - ⟨rfl, h₂⟩
  refine h₂.dropDominatedRows.bind ?_
  rintro ⟨c₃, a₃⟩ ⟨c₃', b₃⟩ - ⟨rfl, h₃⟩
  exact .pure ⟨rfl, h₃⟩

theorem reduceTimes (h : Abreast p x y) (hmay : p → may.IsStable) (fuel : Nat) :
    Traced.Together (Abreast p) (x.reduceTimes may fuel) (y.reduceTimes may fuel) := by
  induction fuel generalizing x y with
  | zero => exact .pure h
  | succ fuel ih =>
      refine (h.reduce hmay).bind ?_
      rintro ⟨_, a⟩ ⟨changed, b⟩ - ⟨rfl, hab⟩
      cases changed with
      | false => exact .pure hab
      | true => exact ih hab

/-- Reducing until nothing changes does the same to matrices in step. -/
theorem reduceFully (h : Abreast p x y) (hmay : p → may.IsStable) :
    Traced.Together (Abreast p) (x.reduceFully may) (y.reduceFully may) := by
  rw [Reduction.reduceFully, Reduction.reduceFully, ← h.matrix.looksLike.numActive_eq]
  exact h.reduceTimes hmay _

end Abreast

/-- On a matrix that is ready and compared, a reduction is abreast of itself. -/
theorem abreast_refl (hx : x.matrix.IsReady) (hc : x.matrix.IsCompared) : Abreast p x x :=
  ⟨⟨inStep_refl hx.isValid hc, rfl⟩, hx.unmarked⟩

end Reduction

end SetCover
