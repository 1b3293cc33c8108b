import Tspp.Core.Agreement
import Tspp.Series.Pipeline
import Tspp.Series.Shift

/-!
# Two runs of a pipeline

Two series are related if they have the same keys and related values. Operations whose
arguments take related values to related values keep series related, and throw alike. So do
pipelines: with the relation that holds of all values, the dates of a result do not depend on
the values; with the graph of a function, a recoding of the values passes through a pipeline.
-/

namespace Tspp

namespace TimeSeries

variable {K V V' W W' O O' : Type}

/-- The same keys and related values. -/
structure Related (R : V → V' → Prop) (ts : TimeSeries K V) (ts' : TimeSeries K V') : Prop where
  keys : ts.keys = ts'.keys
  values : List.Forall₂ R ts.values ts'.values

/-- The same key and related values. -/
def RelatedRow (R : V → V' → Prop) (r : K × V) (r' : K × V') : Prop := r.1 = r'.1 ∧ R r.2 r'.2

section Related

variable {R : V → V' → Prop} {S : O → O' → Prop} {ts : TimeSeries K V} {ts' : TimeSeries K V'}

theorem Related.size_eq (h : Related R ts ts') : ts.size = ts'.size := by
  rw [size, size, h.keys]

/-- Pairing the same keys with related values gives related rows. -/
theorem forall₂_zip_keys (keys : List K) {values : List V} {values' : List V'}
    (h : List.Forall₂ R values values') :
    List.Forall₂ (RelatedRow R) (keys.zip values) (keys.zip values') := by
  induction h generalizing keys with
  | nil => rw [List.zip_nil_right, List.zip_nil_right]; exact .nil
  | cons hab _ ih =>
    cases keys with
    | nil => exact .nil
    | cons k keys => exact .cons ⟨rfl, hab⟩ (ih keys)

theorem Related.rows (h : Related R ts ts') :
    List.Forall₂ (RelatedRow R) ts.rows ts'.rows := by
  rw [TimeSeries.rows, TimeSeries.rows, ← h.keys]
  exact forall₂_zip_keys ts.keys h.values

/-- Series with related rows are related. -/
theorem related_of_rows (h : List.Forall₂ (RelatedRow R) ts.rows ts'.rows) :
    Related R ts ts' := by
  constructor
  · rw [← map_fst_rows, ← map_fst_rows]
    exact List.forall₂_eq_eq_eq ▸ List.rel_map (fun _ _ hr => hr.1) h
  · rw [← map_snd_rows, ← map_snd_rows]
    exact List.rel_map (fun _ _ hr => hr.2) h

theorem related_empty : Related R (empty : TimeSeries K V) empty := ⟨rfl, .nil⟩

/-- Series stay related where related rows are appended. -/
theorem Related.insertEnd (h : Related R ts ts') {r : K × V} {r' : K × V'}
    (hr : RelatedRow R r r') : Related R (ts.insertEnd r) (ts'.insertEnd r') := by
  constructor
  · rw [keys_insertEnd, keys_insertEnd, h.keys, hr.1]
  · exact List.rel_append h.values (.cons hr.2 .nil)

/-- Combining related values position by position gives related values. -/
theorem forall₂_zipWith {T : W → W' → Prop} {f : V → W → O} {f' : V' → W' → O'}
    (hf : ∀ v v' w w', R v v' → T w w' → S (f v w) (f' v' w')) {vs : List V} {vs' : List V'}
    (hv : List.Forall₂ R vs vs') {ws : List W} {ws' : List W'} (hw : List.Forall₂ T ws ws') :
    List.Forall₂ S (List.zipWith f vs ws) (List.zipWith f' vs' ws') := by
  induction hv generalizing ws ws' with
  | nil => exact .nil
  | cons hv _ ih =>
    cases hw with
    | nil => exact .nil
    | cons hw hws => exact .cons (hf _ _ _ _ hv hw) (ih hws)

/-- Windows of related values are related. -/
theorem forall₂_window {vs : List V} {vs' : List V'} (start len : ℕ) (h : List.Forall₂ R vs vs') :
    List.Forall₂ R (window vs start len) (window vs' start len) :=
  List.forall₂_take len (List.forall₂_drop start h)

/-- Deques of related values make room alike. -/
theorem related_makeRoom {buffer : List V} {buffer' : List V'} (windowSize : ℕ)
    (h : List.Forall₂ R buffer buffer') :
    Agree (List.Forall₂ R) (makeRoom windowSize buffer) (makeRoom windowSize buffer') := by
  rw [makeRoom, makeRoom, h.length_eq]
  split
  · cases h with
    | nil => exact .error _
    | cons _ hrest => exact .ok hrest
  · exact .ok h

theorem Related.map {f : V → O} {f' : V' → O'} (h : Related R ts ts')
    (hf : ∀ v v', R v v' → S (f v) (f' v')) : Related S (ts.map f) (ts'.map f') :=
  ⟨h.keys, List.rel_map hf h.values⟩

theorem Related.mapWithDate {f : K × V → O} {f' : K × V' → O'} (h : Related R ts ts')
    (hf : ∀ k v v', R v v' → S (f (k, v)) (f' (k, v'))) :
    Related S (ts.mapWithDate f) (ts'.mapWithDate f') := by
  refine ⟨h.keys, List.rel_map ?_ h.rows⟩
  rintro ⟨k, v⟩ ⟨_, v'⟩ ⟨rfl, hv⟩
  exact hf k v v' hv

theorem Related.fold {f : O → V → O} {f' : O' → V' → O'} {init : O} {init' : O'}
    (h : Related R ts ts') (hf : ∀ v v', R v v' → S (f init v) (f' init' v')) :
    Related S (ts.fold f init) (ts'.fold f' init') := by
  refine ⟨h.keys, ?_⟩
  rw [values_fold, values_fold]
  exact List.rel_map hf h.values

theorem Related.where' {p : K × V → Bool} {p' : K × V' → Bool} (h : Related R ts ts')
    (hp : ∀ k v v', R v v' → p (k, v) = p' (k, v')) :
    Related R (ts.where' p) (ts'.where' p') := by
  apply related_of_rows
  rw [rows_where', rows_where']
  refine List.rel_filter ?_ h.rows
  rintro ⟨k, v⟩ ⟨_, v'⟩ ⟨rfl, hv⟩
  exact Bool.eq_iff_iff.mp (hp k v v' hv)

/-- A shift cuts rows off the same containers, or throws, alike. -/
theorem Related.shift (h : Related R ts ts') (shiftIdx : ℤ) :
    Agree (Related R) (ts.shift shiftIdx) (ts'.shift shiftIdx) := by
  by_cases hfits : |shiftIdx| ≤ ts.size
  · obtain ⟨result, hok, hshift⟩ := shift_eq_ok ts hfits
    obtain ⟨result', hok', hshift'⟩ := shift_eq_ok ts' (h.size_eq ▸ hfits)
    rw [hok, hok']
    refine .ok ⟨?_, ?_⟩
    · rw [hshift.keys, hshift'.keys, h.keys, h.size_eq]
    · rw [hshift.values, hshift'.values, h.size_eq]
      exact forall₂_window _ _ h.values
  · rw [shift_eq_error (not_le.mp hfits), shift_eq_error (h.size_eq ▸ not_le.mp hfits)]
    exact .error _

theorem Related.skip {f : V → V → V} {f' : V' → V' → V'} (h : Related R ts ts') (skipSize : ℕ)
    (hf : ∀ v v' w w', R v v' → R w w' → R (f v w) (f' v' w')) :
    Agree (Related R) (ts.skip skipSize f) (ts'.skip skipSize f') := by
  by_cases hsize : skipSize ≤ ts.size
  · obtain ⟨result, hok, hkeys, hvalues⟩ := skip_eq_ok hsize f
    obtain ⟨result', hok', hkeys', hvalues'⟩ := skip_eq_ok (h.size_eq ▸ hsize) f'
    rw [hok, hok']
    refine .ok ⟨by rw [hkeys, hkeys', h.keys], ?_⟩
    rw [hvalues, hvalues']
    exact forall₂_zipWith hf (List.forall₂_drop _ h.values) h.values
  · rw [skip_eq_error (not_le.mp hsize), skip_eq_error (h.size_eq ▸ not_le.mp hsize)]
    exact .error _

/-- The window moves over related values. -/
theorem Related.applyRolling {f : List V → O} {f' : List V' → O'} (h : Related R ts ts')
    (windowSize : ℕ) (hf : ∀ b b', List.Forall₂ R b b' → S (f b) (f' b')) :
    Agree (Related S) (ts.applyRolling f windowSize) (ts'.applyRolling f' windowSize) := by
  unfold TimeSeries.applyRolling
  rw [h.size_eq]
  split
  · exact .ok related_empty
  refine Agree.bind (Agree.foldlM (S := fun s s' =>
    Related S s.result s'.result ∧ List.Forall₂ R s.buffer s'.buffer) ?_ h.rows
    ⟨related_empty, .nil⟩) fun s s' hs => .ok hs.1
  rintro s s' ⟨k, v⟩ ⟨_, v'⟩ ⟨hresult, hbuffer⟩ ⟨rfl, hv⟩
  have hlen := hbuffer.length_eq
  have hnext : ∀ {b b'}, List.Forall₂ R b b' → List.Forall₂ R (b ++ [v]) (b' ++ [v']) :=
    fun hb => List.rel_append hb (.cons hv .nil)
  rw [rollingStep, rollingStep, hlen]
  split
  · exact .ok ⟨hresult, hnext hbuffer⟩
  · refine (related_makeRoom windowSize hbuffer).bind fun b b' hb => .ok ⟨?_, hnext hb⟩
    exact hresult.insertEnd ⟨rfl, hf _ _ (hnext hb)⟩

section Ordered

variable [LinearOrder K]

/-- The loop of `between` appends related rows and breaks off at the same key. -/
theorem related_betweenLoop (startdt enddt : K) {rs : List (K × V)} {rs' : List (K × V')}
    (hrs : List.Forall₂ (RelatedRow R) rs rs') {sub : TimeSeries K V} {sub' : TimeSeries K V'}
    (hsub : Related R sub sub') :
    Related R (betweenLoop startdt enddt rs sub) (betweenLoop startdt enddt rs' sub') := by
  induction hrs generalizing sub sub' with
  | nil => exact hsub
  | cons hr _ ih =>
    rw [betweenLoop, betweenLoop, ← hr.1]
    split
    · exact hsub
    · apply ih
      split
      · exact hsub.insertEnd hr
      · exact hsub

theorem Related.between (h : Related R ts ts') (startdt enddt : K) :
    Agree (Related R) (ts.between startdt enddt) (ts'.between startdt enddt) := by
  unfold TimeSeries.between
  split
  · exact .ok (related_betweenLoop startdt enddt h.rows related_empty)
  · exact .error _

omit [LinearOrder K] in
/-- Related series are read at the same position. -/
theorem Related.getValue (h : Related R ts ts') (idx : ℤ) :
    Agree R (ts.getValue idx) (ts'.getValue idx) := by
  unfold TimeSeries.getValue
  split
  · exact .error _
  cases hv : ts.values[idx.toNat]? with
  | none =>
    have hnone : ts'.values[idx.toNat]? = none := by
      rw [List.getElem?_eq_none_iff] at hv ⊢
      rwa [← h.values.length_eq]
    rw [hnone]
    exact .error _
  | some v =>
    obtain ⟨hlt, rfl⟩ := List.getElem?_eq_some_iff.mp hv
    have hlt' : idx.toNat < ts'.values.length := h.values.length_eq ▸ hlt
    rw [List.getElem?_eq_getElem hlt']
    exact .ok (h.values.get hlt hlt')

/-- Related series are searched alike. -/
theorem Related.tryAt (h : Related R ts ts') (toInt : ℤ → ℤ) (d : K) :
    Agree (Option.Rel R) (ts.tryAt toInt d) (ts'.tryAt toInt d) := by
  have hloc : ts.locate d = ts'.locate d := by rw [locate, locate, h.keys]
  rw [TimeSeries.tryAt, TimeSeries.tryAt, hloc]
  split
  · exact (h.getValue _).map fun _ _ hv => .some hv
  · exact .ok .none

/-- A row finds a prior value in both series or in neither. -/
theorem Related.skipOnIndex {f : V → V → V} {f' : V' → V' → V'} (h : Related R ts ts')
    (toInt : ℤ → ℤ) (idxFunc : K → K)
    (hf : ∀ v v' w w', R v v' → R w w' → R (f v w) (f' v' w')) :
    Agree (Related R) (ts.skipOnIndex toInt idxFunc f) (ts'.skipOnIndex toInt idxFunc f') := by
  refine Agree.foldlM ?_ h.rows related_empty
  rintro s s' ⟨k, v⟩ ⟨_, v'⟩ hs ⟨rfl, hv⟩
  refine (h.tryAt toInt (idxFunc k)).bind fun w w' hw => ?_
  cases hw with
  | none => exact .ok hs
  | some hw => exact .ok (hs.insertEnd ⟨rfl, hf _ _ _ _ hv hw⟩)

/-- The groups of related series hold related values. -/
theorem Related.resampleAndAgg {grpfn : K → Except Fault K} {f : List V → O} {f' : List V' → O'}
    (h : Related R ts ts') (hf : ∀ b b', List.Forall₂ R b b' → S (f b) (f' b')) :
    Agree (Related S) (ts.resampleAndAgg grpfn f) (ts'.resampleAndAgg grpfn f') := by
  refine Agree.bind (Agree.foldlM (S := fun s s' => Related S s.result s'.result ∧
    List.Forall₂ R s.buffer s'.buffer ∧ s.priorKey = s'.priorKey) ?_ h.rows
    ⟨related_empty, .nil, rfl⟩) ?_
  · rintro s s' ⟨k, v⟩ ⟨_, v'⟩ ⟨hresult, hbuffer, hprior⟩ ⟨rfl, hv⟩
    rw [resampleStep, resampleStep, hprior]
    cases grpfn k with
    | error e => exact .error e
    | ok keycand =>
      refine .ok ?_
      dsimp only
      split
      · split
        · exact ⟨hresult.insertEnd ⟨rfl, hf _ _ hbuffer⟩, .cons hv .nil, rfl⟩
        · exact ⟨hresult, List.rel_append hbuffer (.cons hv .nil), rfl⟩
      · exact ⟨hresult, List.rel_append hbuffer (.cons hv .nil), rfl⟩
  · rintro s s' ⟨hresult, hbuffer, hprior⟩
    refine .ok ?_
    rw [resampleFinish, resampleFinish, hprior]
    split
    · exact hresult.insertEnd ⟨rfl, hf _ _ hbuffer⟩
    · exact hresult

/-- The merges of related rows meet at the same keys. -/
theorem related_innerMerge {T : W → W' → Prop} {f : V → W → O} {f' : V' → W' → O'}
    (hf : ∀ v v' w w', R v v' → T w w' → S (f v w) (f' v' w')) {as : List (K × V)}
    {as' : List (K × V')} (ha : List.Forall₂ (RelatedRow R) as as') {bs : List (K × W)}
    {bs' : List (K × W')} (hb : List.Forall₂ (RelatedRow T) bs bs') :
    List.Forall₂ (RelatedRow S) (KeyedRows.innerMerge f as bs)
      (KeyedRows.innerMerge f' as' bs') := by
  induction as, bs using KeyedRows.innerMerge.induct generalizing as' bs' with
  | case1 bs =>
    cases ha
    rw [KeyedRows.innerMerge_nil_left, KeyedRows.innerMerge_nil_left]
    exact .nil
  | case2 a as =>
    cases hb
    rw [KeyedRows.innerMerge_nil_right, KeyedRows.innerMerge_nil_right]
    exact .nil
  | case3 a v as b w bs hlt ih =>
    obtain ⟨⟨_, v'⟩, as', ⟨rfl, hv⟩, has, rfl⟩ := List.forall₂_cons_left_iff.mp ha
    obtain ⟨⟨_, w'⟩, bs', ⟨rfl, hw⟩, hbs, rfl⟩ := List.forall₂_cons_left_iff.mp hb
    rw [KeyedRows.innerMerge_of_lt hlt, KeyedRows.innerMerge_of_lt hlt]
    exact ih has hb
  | case4 a v as b w bs hlt hgt ih =>
    obtain ⟨⟨_, v'⟩, as', ⟨rfl, hv⟩, has, rfl⟩ := List.forall₂_cons_left_iff.mp ha
    obtain ⟨⟨_, w'⟩, bs', ⟨rfl, hw⟩, hbs, rfl⟩ := List.forall₂_cons_left_iff.mp hb
    rw [KeyedRows.innerMerge_of_gt hgt, KeyedRows.innerMerge_of_gt hgt]
    exact ih ha hbs
  | case5 a v as b w bs hlt hgt ih =>
    obtain rfl : a = b := le_antisymm (not_lt.mp hgt) (not_lt.mp hlt)
    obtain ⟨⟨_, v'⟩, as', ⟨rfl, hv⟩, has, rfl⟩ := List.forall₂_cons_left_iff.mp ha
    obtain ⟨⟨_, w'⟩, bs', ⟨rfl, hw⟩, hbs, rfl⟩ := List.forall₂_cons_left_iff.mp hb
    rw [KeyedRows.innerMerge_of_eq, KeyedRows.innerMerge_of_eq]
    exact .cons ⟨rfl, hf _ _ _ _ hv hw⟩ (ih has hbs)

theorem Related.crossApplyInner {T : W → W' → Prop} {other : TimeSeries K W}
    {other' : TimeSeries K W'} {f : V → W → O} {f' : V' → W' → O'} (h : Related R ts ts')
    (hother : Related T other other')
    (hf : ∀ v v' w w', R v v' → T w w' → S (f v w) (f' v' w')) :
    Agree (Related S) (ts.crossApplyInner other f) (ts'.crossApplyInner other' f') := by
  obtain ⟨result, hok, hrows⟩ := crossApplyInner_eq ts other f
  obtain ⟨result', hok', hrows'⟩ := crossApplyInner_eq ts' other' f'
  rw [hok, hok']
  refine .ok (related_of_rows ?_)
  rw [hrows, hrows']
  exact related_innerMerge hf h.rows hother.rows

end Ordered

end Related

end TimeSeries

open TimeSeries

variable {K : Type} [LinearOrder K]

/-- The same operation on values related by `R`, with results related by `S`: the arguments that
concern dates are equal, and the functions take related values to related values. -/
inductive Operation.Related : {V V' O O' : Type} → (V → V' → Prop) → (O → O' → Prop) →
    Operation K V O → Operation K V' O' → Prop
  | map {V V' O O' : Type} {R : V → V' → Prop} {S : O → O' → Prop} {f : V → O} {f' : V' → O'}
      (hf : ∀ v v', R v v' → S (f v) (f' v')) : Related R S (.map f) (.map f')
  | mapWithDate {V V' O O' : Type} {R : V → V' → Prop} {S : O → O' → Prop} {f : K × V → O}
      {f' : K × V' → O'} (hf : ∀ k v v', R v v' → S (f (k, v)) (f' (k, v'))) :
      Related R S (.mapWithDate f) (.mapWithDate f')
  | fold {V V' O O' : Type} {R : V → V' → Prop} {S : O → O' → Prop} {f : O → V → O}
      {f' : O' → V' → O'} {init : O} {init' : O'}
      (hf : ∀ v v', R v v' → S (f init v) (f' init' v')) :
      Related R S (.fold f init) (.fold f' init')
  | between {V V' : Type} {R : V → V' → Prop} (startdt enddt : K) :
      Related R R (.between startdt enddt) (.between startdt enddt)
  | where' {V V' : Type} {R : V → V' → Prop} {p : K × V → Bool} {p' : K × V' → Bool}
      (hp : ∀ k v v', R v v' → p (k, v) = p' (k, v')) : Related R R (.where' p) (.where' p')
  | shift {V V' : Type} {R : V → V' → Prop} (shiftIdx : ℤ) :
      Related R R (.shift shiftIdx) (.shift shiftIdx)
  | skip {V V' : Type} {R : V → V' → Prop} {f : V → V → V} {f' : V' → V' → V'} (skipSize : ℕ)
      (hf : ∀ v v' w w', R v v' → R w w' → R (f v w) (f' v' w')) :
      Related R R (.skip skipSize f) (.skip skipSize f')
  | skipOnIndex {V V' : Type} {R : V → V' → Prop} {f : V → V → V} {f' : V' → V' → V'}
      (idxFunc : K → K) (hf : ∀ v v' w w', R v v' → R w w' → R (f v w) (f' v' w')) :
      Related R R (.skipOnIndex idxFunc f) (.skipOnIndex idxFunc f')
  | applyRolling {V V' O O' : Type} {R : V → V' → Prop} {S : O → O' → Prop} {f : List V → O}
      {f' : List V' → O'} (windowSize : ℕ) (hw : 1 ≤ windowSize)
      (hf : ∀ b b', List.Forall₂ R b b' → S (f b) (f' b')) :
      Related R S (.applyRolling f windowSize hw) (.applyRolling f' windowSize hw)
  | resampleAndAgg {V V' O O' : Type} {R : V → V' → Prop} {S : O → O' → Prop} {f : List V → O}
      {f' : List V' → O'} (grpfn : K → K) (hmono : Monotone grpfn)
      (hf : ∀ b b', List.Forall₂ R b b' → S (f b) (f' b')) :
      Related R S (.resampleAndAgg grpfn f hmono) (.resampleAndAgg grpfn f' hmono)
  | crossApplyInner {V V' W W' O O' : Type} {R : V → V' → Prop} {T : W → W' → Prop}
      {S : O → O' → Prop} {f : V → W → O} {f' : V' → W' → O'} {other : TimeSeries K W}
      {other' : TimeSeries K W'} (hother : TimeSeries.Related T other other')
      (hi : other.StrictlyIncreasing) (hi' : other'.StrictlyIncreasing)
      (hf : ∀ v v' w w', R v v' → T w w' → S (f v w) (f' v' w')) :
      Related R S (.crossApplyInner other f hi) (.crossApplyInner other' f' hi')

/-- The same operations one after another, with related values in between. -/
inductive Pipeline.Related : {V V' O O' : Type} → (V → V' → Prop) → (O → O' → Prop) →
    Pipeline K V O → Pipeline K V' O' → Prop
  | nil {V V' : Type} {R : V → V' → Prop} : Related R R .nil .nil
  | cons {V V' W W' O O' : Type} {R : V → V' → Prop} {T : W → W' → Prop} {S : O → O' → Prop}
      {op : Operation K V W} {op' : Operation K V' W'} {rest : Pipeline K W O}
      {rest' : Pipeline K W' O'} (hop : op.Related R T op') (hrest : rest.Related T S rest') :
      Related R S (.cons op rest) (.cons op' rest')

section Runs

variable {V V' O O' : Type} {R : V → V' → Prop} {S : O → O' → Prop} {ts : TimeSeries K V}
  {ts' : TimeSeries K V'} {toInt : ℤ → ℤ}

/-- The same operation keeps series related, or throws alike. -/
theorem Operation.apply_related {op : Operation K V O} {op' : Operation K V' O'}
    (hop : op.Related R S op') (h : ts.Related R ts') :
    Agree (TimeSeries.Related S) (op.apply toInt ts) (op'.apply toInt ts') := by
  cases hop with
  | map hf => exact .ok (h.map hf)
  | mapWithDate hf => exact .ok (h.mapWithDate hf)
  | fold hf => exact .ok (h.fold hf)
  | between startdt enddt => exact h.between startdt enddt
  | where' hp => exact .ok (h.where' hp)
  | shift shiftIdx => exact h.shift shiftIdx
  | skip skipSize hf => exact h.skip skipSize hf
  | skipOnIndex idxFunc hf => exact h.skipOnIndex toInt idxFunc hf
  | applyRolling windowSize hw hf => exact h.applyRolling windowSize hf
  | resampleAndAgg grpfn hmono hf => exact h.resampleAndAgg hf
  | crossApplyInner hother hi hi' hf => exact h.crossApplyInner hother hf

/-- The same pipeline keeps series related, or throws alike. -/
theorem Pipeline.run_related {p : Pipeline K V O} {p' : Pipeline K V' O'}
    (hp : p.Related R S p') (h : ts.Related R ts') :
    Agree (TimeSeries.Related S) (p.run toInt ts) (p'.run toInt ts') := by
  induction hp with
  | nil => exact .ok h
  | cons hop hrest ih =>
    rw [run, run]
    exact (Operation.apply_related hop h).bind fun mid mid' hmid => ih hmid

end Runs

/-- The rows that the operation keeps depend on their dates only. -/
def Operation.SelectsByDate {V O : Type} : Operation K V O → Prop
  | .where' predicate => ∀ k v v', predicate (k, v) = predicate (k, v')
  | _ => True

/-- Every operation selects by date. -/
def Pipeline.SelectsByDate {V O : Type} : Pipeline K V O → Prop
  | .nil => True
  | .cons op rest => op.SelectsByDate ∧ rest.SelectsByDate

section Dates

variable {V O : Type}

omit [LinearOrder K] in
/-- Series with the same dates are related by the relation that holds of all values. -/
theorem related_of_keys {V' : Type} {ts : TimeSeries K V} {ts' : TimeSeries K V'}
    (h : ts.keys = ts'.keys) : ts.Related (fun _ _ => True) ts' := by
  refine ⟨h, List.forall₂_iff_get.mpr ⟨?_, fun _ _ _ => trivial⟩⟩
  rw [← ts.paired, ← ts'.paired, h]

/-- An operation that selects by date is related to itself whatever the values are. -/
theorem Operation.SelectsByDate.related {op : Operation K V O} (h : op.SelectsByDate) :
    op.Related (fun _ _ => True) (fun _ _ => True) op := by
  cases op with
  | map func => exact .map fun _ _ _ => trivial
  | mapWithDate func => exact .mapWithDate fun _ _ _ _ => trivial
  | fold func initval => exact .fold fun _ _ _ => trivial
  | between startdt enddt => exact .between startdt enddt
  | where' predicate => exact .where' fun k v v' _ => h k v v'
  | shift shiftIdx => exact .shift shiftIdx
  | skip skipSize func => exact .skip skipSize fun _ _ _ _ _ _ => trivial
  | skipOnIndex idxFunc func => exact .skipOnIndex idxFunc fun _ _ _ _ _ _ => trivial
  | applyRolling func windowSize hw => exact .applyRolling windowSize hw fun _ _ _ => trivial
  | resampleAndAgg grpfn aggfn hmono =>
    exact .resampleAndAgg grpfn hmono fun _ _ _ => trivial
  | crossApplyInner other func hother =>
    exact .crossApplyInner (related_of_keys rfl) hother hother fun _ _ _ _ _ _ => trivial

theorem Pipeline.SelectsByDate.related {p : Pipeline K V O} (h : p.SelectsByDate) :
    p.Related (fun _ _ => True) (fun _ _ => True) p := by
  induction p with
  | nil => exact .nil
  | cons op rest ih => exact .cons h.1.related (ih h.2)

/-- The dates of the result of a pipeline, and what it throws, depend on the dates of the series
alone, unless it selects rows by their values. -/
theorem Pipeline.keys_run_eq (toInt : ℤ → ℤ) (p : Pipeline K V O) (hp : p.SelectsByDate)
    (ts ts' : TimeSeries K V) (hkeys : ts.keys = ts'.keys) :
    (p.run toInt ts).map (fun result => result.keys) =
      (p.run toInt ts').map fun result => result.keys :=
  (run_related hp.related (related_of_keys hkeys)).map_congr fun _ _ h => h.keys

/-- Differences of two series with the same dates, and the later ones of their sums in pairs. -/
theorem Pipeline.keys_run_eq_lagged :
    ((Pipeline.cons (.skip 1 (· - ·)) (.cons (.applyRolling List.sum 2 (by decide))
      (.cons (.where' fun r => decide (30 < r.1)) .nil))).run int32
        (ofRows [((10 : ℤ), (7 : ℤ)), (20, 0), (30, -4), (40, 1)])).map
          (fun result => result.keys) = .ok [40] := by
  refine (Pipeline.keys_run_eq int32 (.cons (.skip 1 (· - ·))
    (.cons (.applyRolling List.sum 2 (by decide))
      (.cons (.where' fun r => decide (30 < r.1)) .nil)))
    (by simp [SelectsByDate, Operation.SelectsByDate]) _
    (ofRows [((10 : ℤ), (1 : ℤ)), (20, 2), (30, 4), (40, 8)]) rfl).trans ?_
  rfl

end Dates

section Recoding

variable {V V' O O' : Type}

/-- Lists are related by a function position by position if it maps the one to the other. -/
theorem forall₂_graph_iff {f : V → V'} {vs : List V} {vs' : List V'} :
    List.Forall₂ (fun v v' => f v = v') vs vs' ↔ vs.map f = vs' := by
  rw [← List.forall₂_map_left_iff, List.forall₂_eq_eq_eq]

omit [LinearOrder K] in
/-- A series is related to the series with its values recoded. -/
theorem related_map_iff {f : V → V'} {ts : TimeSeries K V} {ts' : TimeSeries K V'} :
    ts.Related (fun v v' => f v = v') ts' ↔ ts.map f = ts' := by
  constructor
  · intro h
    apply ext_rows
    rw [rows, rows, ← h.keys, ← forall₂_graph_iff.mp h.values]
    rfl
  · rintro rfl
    exact ⟨rfl, forall₂_graph_iff.mpr rfl⟩

/-- A recoding of the values that every operation respects passes through a pipeline: to recode
the series first is to recode the result. -/
theorem Pipeline.run_map (toInt : ℤ → ℤ) (p : Pipeline K V O) (p' : Pipeline K V' O')
    (f : V → V') (g : O → O')
    (hp : p.Related (fun v v' => f v = v') (fun o o' => g o = o') p') (ts : TimeSeries K V) :
    p'.run toInt (ts.map f) = (p.run toInt ts).map fun result => result.map g := by
  refine (Agree.map_eq ?_).symm
  exact (run_related hp (related_map_iff.mpr rfl)).mono fun _ _ h => related_map_iff.mp h

/-- The sum of scaled values is the scaled sum. -/
theorem sum_of_scaled {c : ℤ} {b b' : List ℤ} (h : List.Forall₂ (fun v v' => c * v = v') b b') :
    c * b.sum = b'.sum := by
  induction h with
  | nil => exact Int.mul_zero c
  | cons hv _ ih => rw [List.sum_cons, List.sum_cons, Int.mul_add, hv, ih]

/-- Differences and sums of values in another unit. -/
theorem Pipeline.run_map_scaled :
    (Pipeline.cons (.skip 1 (· - ·)) (.cons (.applyRolling List.sum 2 (by decide)) .nil)).run
        int32 ((ofRows [((10 : ℤ), (1 : ℤ)), (20, 2), (30, 4), (40, 8)]).map (100 * ·)) =
      .ok (ofRows [(30, 300), (40, 600)]) := by
  refine (Pipeline.run_map int32 (.cons (.skip 1 (· - ·))
    (.cons (.applyRolling List.sum 2 (by decide)) .nil)) _ (100 * ·) (100 * ·)
    (.cons (.skip 1 ?_) (.cons (.applyRolling 2 (by decide) fun _ _ => sum_of_scaled) .nil))
    _).trans ?_
  · rintro v _ w _ rfl rfl
    exact Int.mul_sub 100 v w
  · rfl

end Recoding

end Tspp
