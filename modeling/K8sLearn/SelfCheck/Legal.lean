import K8sLearn.Hif4.Baseline
import K8sLearn.Hif4.Gptq
import K8sLearn.SelfCheck.Gate

/-! # What the validator accepts

The validator knows the scale table only as arithmetic: a range, and rounding to two bits
after the leading one. In exact arithmetic that is the table, and on five tensors of the
expected shapes with finite numbers the validator has nothing to say exactly when all
values are legal.
-/

namespace K8sLearn.SelfCheck

open Rounding Hif4

section Values

structure LegalValues (ts : ParamTensors (List ℚ)) : Prop where
  scaleFactor : ∀ q ∈ ts.scaleFactor, q ∈ generateE6m2Table
  scaleLv2 : ∀ q ∈ ts.scaleLv2, q = 1 ∨ q = 2
  scaleLv3 : ∀ q ∈ ts.scaleLv3, q = 1 ∨ q = 2
  sign : ∀ q ∈ ts.sign, q = -1 ∨ q = 0 ∨ q = 1
  mant : ∀ q ∈ ts.mant, ∃ m : ℕ, m ≤ 7 ∧ q = m / 4

def roundedScale (q : ℚ) : ℚ :=
  roundHalfEven (q * 2 ^ (2 - Int.log 2 q)) * 2 ^ (Int.log 2 q - 2)

theorem log_e6m2 (i : ℕ) : Int.log 2 (e6m2 i) = ((i / 4 : ℕ) : ℤ) - 48 := by
  have hpos := e6m2_pos i
  have hmod : ((i % 4 : ℕ) : ℚ) < 4 := by exact_mod_cast Nat.mod_lt i (by norm_num)
  have hmod0 : (0 : ℚ) ≤ (i % 4 : ℕ) := Nat.cast_nonneg _
  set E : ℤ := ((i / 4 : ℕ) : ℤ) - 48 with hE
  have hp : (0 : ℚ) < 2 ^ E := by positivity
  apply le_antisymm
  · rw [← Int.lt_add_one_iff, ← Int.lt_zpow_iff_log_lt (by norm_num) hpos, e6m2, ← hE,
      Nat.cast_ofNat, zpow_add_one₀ two_ne_zero]
    nlinarith
  · rw [← Int.zpow_le_iff_le_log (by norm_num) hpos, e6m2, ← hE, Nat.cast_ofNat]
    nlinarith

theorem roundedScale_e6m2 (i : ℕ) : roundedScale (e6m2 i) = e6m2 i := by
  rw [roundedScale, log_e6m2, e6m2]
  generalize ((i / 4 : ℕ) : ℤ) - 48 = E
  generalize i % 4 = r
  have hcancel : (2 : ℚ) ^ E * 2 ^ (2 - E) = 4 := by
    rw [← zpow_add₀ two_ne_zero]
    norm_num
  have hint : (1 + (r : ℚ) * (1 / 4)) * 2 ^ E * 2 ^ (2 - E) = ((4 + r : ℤ) : ℚ) := by
    rw [mul_assoc, hcancel]
    push_cast
    ring
  have hback : (2 : ℚ) ^ (E - 2) = 2 ^ E / 4 := by
    rw [zpow_sub₀ two_ne_zero]
    norm_num
  rw [hint, roundHalfEven_intCast, hback]
  push_cast
  ring

/-- A mantissa of three binary digits and an exponent in the range are those of an entry. -/
theorem exists_e6m2_of_digits {m E : ℤ} (hm4 : 4 ≤ m) (hm8 : m < 8) (hE48 : -48 ≤ E) (hE16 : E < 16)
    (hlast : E = 15 → m ≤ 6) : ∃ i < 255, e6m2 i = m * (2 ^ E / 4) := by
  refine ⟨(4 * (E + 48) + (m - 4)).toNat, by omega, ?_⟩
  have hmod : (4 * (E + 48) + (m - 4)).toNat % 4 = (m - 4).toNat := by omega
  have hdiv : (((4 * (E + 48) + (m - 4)).toNat / 4 : ℕ) : ℤ) - 48 = E := by omega
  have hcast : (((m - 4).toNat : ℕ) : ℚ) = m - 4 := by
    have : (((m - 4).toNat : ℕ) : ℤ) = m - 4 := Int.toNat_of_nonneg (by omega)
    exact_mod_cast this
  rw [e6m2, hmod, hdiv, hcast]
  ring

theorem mem_table_iff (q : ℚ) : q ∈ generateE6m2Table ↔
    2 ^ (-48 : ℤ) ≤ q ∧ q ≤ 49152 ∧ roundedScale q = q := by
  rw [mem_generateE6m2Table]
  constructor
  · rintro ⟨i, hi, rfl⟩
    refine ⟨?_, ?_, roundedScale_e6m2 i⟩
    · rw [← e6m2_zero]
      exact e6m2_strictMono.monotone (Nat.zero_le i)
    · rw [← e6m2_last]
      exact e6m2_strictMono.monotone (by omega)
  · rintro ⟨hlo, hhi, hr⟩
    have hpos : 0 < q := lt_of_lt_of_le (by positivity) hlo
    have hlog := Int.zpow_log_le_self (b := 2) (by norm_num) hpos
    have hlog' := Int.lt_zpow_succ_log_self (b := 2) (by norm_num) q
    rw [roundedScale] at hr
    generalize roundHalfEven (q * 2 ^ (2 - Int.log 2 q)) = m at hr
    generalize Int.log 2 q = E at hlog hlog' hr
    push_cast at hlog hlog'
    have hback : (2 : ℚ) ^ (E - 2) = 2 ^ E / 4 := by
      rw [zpow_sub₀ two_ne_zero]
      norm_num
    have hp : (0 : ℚ) < 2 ^ E := by positivity
    rw [zpow_add_one₀ two_ne_zero] at hlog'
    rw [hback] at hr
    -- the leading digit is kept, so the rounded mantissa lies between four and seven
    have hm4 : 4 ≤ m := by
      have : (4 : ℚ) ≤ m := by nlinarith
      exact_mod_cast this
    have hm8 : m < 8 := by
      have : (m : ℚ) < 8 := by nlinarith
      exact_mod_cast this
    have hE48 : -48 < E + 1 := by
      have : (2 : ℚ) ^ (-48 : ℤ) < 2 ^ (E + 1) := by
        rw [zpow_add_one₀ two_ne_zero]
        linarith
      exact (zpow_lt_zpow_iff_right₀ (by norm_num)).mp this
    have hE16 : E < 16 := by
      have : (2 : ℚ) ^ E < 2 ^ (16 : ℤ) := by
        norm_num
        linarith
      exact (zpow_lt_zpow_iff_right₀ (by norm_num)).mp this
    have hlast : E = 15 → m ≤ 6 := by
      rintro rfl
      have : (m : ℚ) ≤ 6 := by
        norm_num at hr
        linarith
      exact_mod_cast this
    obtain ⟨i, hi, h⟩ := exists_e6m2_of_digits hm4 hm8 (by omega) hE16 hlast
    exact ⟨i, hi, h.trans hr⟩

theorem mem_quarters_iff (q : ℚ) : (∃ m : ℕ, m ≤ 7 ∧ q = m / 4) ↔
    0 ≤ q ∧ q ≤ 7 / 4 ∧ (roundHalfEven (q * 4) : ℚ) = q * 4 := by
  constructor
  · rintro ⟨m, hm, rfl⟩
    have hm7 : (m : ℚ) ≤ 7 := by exact_mod_cast hm
    refine ⟨by positivity, by linarith, ?_⟩
    rw [div_mul_cancel₀ _ (by norm_num : (4 : ℚ) ≠ 0)]
    exact congrArg _ (roundHalfEven_intCast m)
  · rintro ⟨h0, h7, hr⟩
    generalize roundHalfEven (q * 4) = m at hr
    have hm0 : 0 ≤ m := by
      have : (0 : ℚ) ≤ m := by linarith
      exact_mod_cast this
    have hm7 : m ≤ 7 := by
      have : (m : ℚ) ≤ 7 := by linarith
      exact_mod_cast this
    refine ⟨m.toNat, by omega, ?_⟩
    have hcast : ((m.toNat : ℕ) : ℚ) = m := by exact_mod_cast Int.toNat_of_nonneg hm0
    rw [hcast]
    linarith

variable {rt : Runtime}

theorem setErrors_eq_nil_iff {ok : ℚ → Bool} {text : String} {values : List ℚ} :
    setErrors rt ok text values = [] ↔ ∀ q ∈ values, ok q = true := by
  simp only [setErrors, ne_eq, ite_not, ite_eq_left_iff, List.cons_ne_nil, imp_false, not_not,
    List.filter_eq_nil_iff, Bool.not_eq_true, Bool.not_eq_false']

theorem countErrors_eq_nil_iff {values : List ℚ} {bad : ℚ → Bool} {before after : String} :
    countErrors (values.countP bad) before after = [] ↔ ∀ q ∈ values, bad q = false := by
  simp [countErrors, List.countP_eq_zero]

theorem eq_finite_iff (p q : ℚ) : PyFloat.eq (.finite p) (.finite q) = true ↔ p = q := by
  simp [PyFloat.eq]

theorem sfE6m2_exact {q : ℚ} (hq : 2 ^ (-48 : ℤ) ≤ q) :
    sfE6m2 .finite q = .finite (roundedScale q) := by
  have hmax : max q (2 ^ (-126 : ℤ)) = q :=
    max_eq_left ((zpow_le_zpow_right₀ (by norm_num) (by norm_num)).trans hq)
  simp only [sfE6m2, hmax, PyFloat.mul, roundFloat, roundedScale]

theorem valueErrors_eq_nil_iff (hfl : rt.fl = .finite) {ts : ParamTensors (List ℚ)}
    {tag : String} : valueErrors rt ts tag = [] ↔ LegalValues ts := by
  simp only [valueErrors, List.append_eq_nil_iff, countErrors_eq_nil_iff, setErrors_eq_nil_iff,
    hfl, PyFloat.mul, roundFloat, ite_eq_right_iff, List.cons_ne_nil, imp_false,
    List.any_eq_true, decide_eq_true_eq, decide_eq_false_iff_not, not_lt, Bool.not_eq_false',
    Bool.or_eq_true, eq_finite_iff, not_exists, not_and, or_assoc]
  constructor
  · rintro ⟨⟨⟨⟨⟨⟨⟨⟨hlo, hhi⟩, hgrid⟩, h2⟩, h3⟩, hsign⟩, hm0⟩, hm7⟩, hm⟩
    refine ⟨fun q hq => ?_, h2, h3, hsign, fun q hq => ?_⟩
    · have hg := hgrid q hq
      rw [sfE6m2_exact (hlo q hq), eq_finite_iff] at hg
      exact (mem_table_iff q).mpr ⟨hlo q hq, hhi q hq, hg.symm⟩
    · exact (mem_quarters_iff q).mpr ⟨hm0 q hq, hm7 q hq, (hm q hq).symm⟩
  · rintro ⟨hs, h2, h3, hsign, hm⟩
    have hs' := fun q hq => (mem_table_iff q).mp (hs q hq)
    have hm' := fun q hq => (mem_quarters_iff q).mp (hm q hq)
    refine ⟨⟨⟨⟨⟨⟨⟨⟨fun q hq => (hs' q hq).1, fun q hq => (hs' q hq).2.1⟩, fun q hq => ?_⟩, h2⟩, h3⟩,
      hsign⟩, fun q hq => (hm' q hq).1⟩, fun q hq => (hm' q hq).2.1⟩,
      fun q hq => (hm' q hq).2.2.symm⟩
    rw [sfE6m2_exact (hs' q hq).1, eq_finite_iff, (hs' q hq).2.2]

end Values

def ParamTensors.ofParams {α : Type*} (f : Param → α) : ParamTensors α :=
  ⟨f .scaleFactor, f .scaleLv2, f .scaleLv3, f .sign, f .mant⟩

/-- A dictionary that holds five tensors of these shapes, with these finite numbers. -/
def Holds (items : List (Value × Value)) (expected : Param → List ℕ) (values : Param → List ℚ) :
    Prop :=
  ∀ p : Param, ∃ sub t, PyValue.lookup p.key.toList items = some (.object (.tensor sub t)) ∧
    t.shape = expected p ∧ t.dtype.isComplex = false ∧
    t.content = .dense ((values p).map .finite)

section Dictionary

variable {rt : Runtime} {items : List (Value × Value)} {expected : Param → List ℕ}
  {values : Param → List ℚ} {tag : String}

theorem Holds.exists_checkTensor (h : Holds items expected values) (tag : String) (p : Param) :
    ∃ t : Tensor PyFloat, checkTensor items (expected p) tag p = .ok (.ok t) ∧
      t.shape = expected p ∧ t.data = (values p).map .finite := by
  obtain ⟨sub, t, hlookup, hshape, hcomplex, hcontent⟩ := h p
  refine ⟨⟨t.shape, (values p).map .finite, t.length_data _ hcontent⟩, ?_, hshape, rfl⟩
  simp only [checkTensor, hlookup, hshape, ne_eq, not_true_eq_false, if_false, hcomplex,
    Bool.false_eq_true]
  split
  · case h_1 data hdata =>
    obtain rfl := Content.dense.inj (hcontent.symm.trans hdata)
    simp
  · case h_2 hdata => exact absurd (hcontent.symm.trans hdata) (by simp)
  · case h_3 hdata => exact absurd (hcontent.symm.trans hdata) (by simp)

def AllFinite (t : Tensor PyFloat) : Prop := ∀ x ∈ t.data, x.isFinite = true

theorem AllFinite.of_map {t : Tensor PyFloat} {l : List ℚ} (h : t.data = l.map .finite) :
    AllFinite t := by
  intro x hx
  rw [h] at hx
  obtain ⟨q, -, rfl⟩ := List.mem_map.mp hx
  rfl

theorem AllFinite.countP_eq_zero {t : Tensor PyFloat} (h : AllFinite t) :
    t.data.countP (fun x => !x.isFinite) = 0 := by
  rw [List.countP_eq_zero]
  intro x hx
  simp [h x hx]

theorem AllFinite.broadcastWith {a b r : Tensor PyFloat} (ha : AllFinite a) (hb : AllFinite b)
    (h : Tensor.broadcastWith (PyFloat.mul .finite) a b = some r) : AllFinite r := by
  intro x hx
  obtain ⟨y, hy, z, hz, rfl⟩ := Tensor.mem_broadcastWith h hx
  have hyf := ha y hy
  have hzf := hb z hz
  cases y with
  | finite p =>
    cases z with
    | finite q => rfl
    | _ => cases hzf
  | _ => cases hyf

theorem exists_dequant {T : Param → Tensor PyFloat} {init shape : List ℕ}
    (hT : ∀ p, (T p).shape = init ++ p.axes) (hfin : ∀ p, AllFinite (T p))
    (hprod : (init ++ [8, 2, 4]).prod = shape.prod) :
    ∃ r, dequant .finite (.ofParams T) shape = some r ∧ AllFinite r ∧
      r.data.length = shape.prod := by
  have hmul : ∀ (p : Param) (a : Tensor PyFloat), a.shape = init ++ [8, 2, 4] → AllFinite a →
      ∃ r, Tensor.broadcastWith (PyFloat.mul .finite) a (T p) = some r ∧
        r.shape = init ++ [8, 2, 4] ∧ AllFinite r := by
    intro p a ha haf
    have he : Tensor.Expandable (T p).shape.reverse a.shape.reverse := by
      rw [hT, ha]
      cases p <;> simp [Param.axes, Tensor.Expandable, Tensor.expandable_self]
    obtain ⟨r, hr, hrs, -⟩ := Tensor.broadcastWith_getD (f := PyFloat.mul .finite) he
    exact ⟨r, hr, hrs.trans ha, haf.broadcastWith (hfin p) hr⟩
  obtain ⟨r₁, h₁, hs₁, hf₁⟩ := hmul .mant (T .sign) (hT .sign) (hfin .sign)
  obtain ⟨r₂, h₂, hs₂, hf₂⟩ := hmul .scaleLv2 r₁ hs₁ hf₁
  obtain ⟨r₃, h₃, hs₃, hf₃⟩ := hmul .scaleLv3 r₂ hs₂ hf₂
  obtain ⟨r₄, h₄, hs₄, hf₄⟩ := hmul .scaleFactor r₃ hs₃ hf₃
  have hlen : r₄.data.length = shape.prod := by rw [r₄.length_data, hs₄, hprod]
  obtain ⟨u, hu, -, hud⟩ := Tensor.exists_reshape hlen
  refine ⟨u, ?_, by rw [AllFinite, hud]; exact hf₄, by rw [hud, hlen]⟩
  simp only [dequant, ParamTensors.ofParams, h₁, h₂, h₃, h₄, Option.bind_eq_bind, Option.bind_some,
    hu]

theorem expectedHif4ParamShapes_eq_ok {shape : List ℕ}
    (h : expectedHif4ParamShapes shape = .ok expected) :
    ∃ init, expected = (fun p => init ++ p.axes) ∧ (init ++ [8, 2, 4]).prod = shape.prod := by
  simp only [expectedHif4ParamShapes] at h
  split at h
  · cases h
  · case h_2 channels hlast =>
    split_ifs at h with hmod
    have hne : shape ≠ [] := by
      rintro rfl
      cases hlast
    rw [List.getLast?_eq_some_getLast hne] at hlast
    obtain rfl := Option.some.inj hlast
    refine ⟨_, (Except.ok.inj h).symm, ?_⟩
    have hdiv := Nat.div_mul_cancel (Nat.dvd_of_mod_eq_zero (not_not.mp hmod))
    have hprod := congrArg List.prod (List.dropLast_append_getLast hne)
    rw [List.prod_append, List.prod_singleton] at hprod
    simp only [List.prod_append, List.prod_cons, List.prod_nil, mul_one]
    rw [← hprod, mul_assoc]
    congr 1

theorem Holds.validate_eq (hfl : rt.fl = .finite) (h : Holds items expected values)
    {shape : List ℕ} (hexp : expectedHif4ParamShapes shape = .ok expected) (sub : Option String) :
    validateHif4Params rt (.dict sub items) shape tag =
      .ok (valueErrors rt (.ofParams values) tag) := by
  choose T hcheck hshape hdata using h.exists_checkTensor tag
  have hfin : ∀ p, AllFinite (T p) := fun p => .of_map (hdata p)
  obtain ⟨init, rfl, hprod⟩ := expectedHif4ParamShapes_eq_ok hexp
  obtain ⟨r, hr, hrf, hrl⟩ := exists_dequant hshape hfin hprod
  have hnone : ∀ p, finiteErrors tag p (T p) = [] := by
    intro p
    simp [finiteErrors, (hfin p).countP_eq_zero]
  have hvalues : ∀ p, (T p).data.map PyFloat.toRat = values p := by
    intro p
    rw [hdata, List.map_map]
    exact List.map_id _
  have hnumel : ∀ n : ℕ, n = shape.prod → (if n ≠ shape.prod then
      [s!"{tag}: dequantized numel {n} != expected {shape.prod}"] else []) = [] :=
    fun n hn => if_neg (not_not.mpr hn)
  have hproduct := hrf.countP_eq_zero
  simp only [ParamTensors.ofParams] at hr
  simp only [validateHif4Params, hexp, checkTensors, hcheck, bind, Except.bind, pure, Except.pure,
    hnone, List.append_nil, ne_eq, not_true_eq_false, if_false, hfl, hr, hproduct, hnumel _ hrl,
    List.nil_append, hvalues, ParamTensors.ofParams]

theorem Holds.validate_eq_nil_iff (hfl : rt.fl = .finite) (h : Holds items expected values)
    {shape : List ℕ} (hexp : expectedHif4ParamShapes shape = .ok expected) (sub : Option String) :
    validateHif4Params rt (.dict sub items) shape tag = .ok [] ↔
      LegalValues (.ofParams values) := by
  rw [h.validate_eq hfl hexp, Except.ok.injEq, valueErrors_eq_nil_iff hfl]

end Dictionary

section Emitted

/-- The numbers of one block in one of the five tensors, in row-major order. -/
def blockValues (e : Encoding) : Param → List ℚ
  | .scaleFactor => [e.scaleFactor]
  | .scaleLv2 => (List.finRange 8).map e.scaleLv2
  | .scaleLv3 => (List.finRange 8).flatMap fun i => (List.finRange 2).map (e.scaleLv3 i)
  | .sign => (List.finRange 8).flatMap fun i => (List.finRange 2).flatMap fun j =>
      (List.finRange 4).map (e.sign i j)
  | .mant => (List.finRange 8).flatMap fun i => (List.finRange 2).flatMap fun j =>
      (List.finRange 4).map (e.mant i j)

theorem length_blockValues (e : Encoding) (p : Param) :
    (blockValues e p).length = p.axes.prod := by
  cases p <;> simp [blockValues, Param.axes]

theorem length_flatMap_blockValues (params : Tensor Encoding) (p : Param) :
    (params.data.flatMap fun e => blockValues e p).length = (params.shape ++ p.axes).prod := by
  simp [length_blockValues, params.length_data]

def emittedTensor (params : Tensor Encoding) (p : Param) : TorchTensor where
  shape := params.shape ++ p.axes
  dtype := .float32
  onCpu := true
  strided := true
  requiresGrad := false
  content := .dense ((params.data.flatMap fun e => blockValues e p).map .finite)
  length_data := by
    rintro data h
    obtain rfl := Content.dense.inj h
    rw [List.length_map, length_flatMap_blockValues]

/-- The entries of the dictionary that the quantizers return. -/
def emittedItems (params : Tensor Encoding) : List (Value × Value) :=
  [Param.scaleFactor, .scaleLv2, .scaleLv3, .sign, .mant].map fun p =>
    (.str p.key.toList, .object (.tensor none (emittedTensor params p)))

def emitted (params : Tensor Encoding) : Value := .dict none (emittedItems params)

theorem holds_emittedItems (params : Tensor Encoding) :
    Holds (emittedItems params) (fun p => params.shape ++ p.axes)
      fun p => params.data.flatMap fun e => blockValues e p := by
  intro p
  refine ⟨none, emittedTensor params p, ?_, rfl, rfl, rfl⟩
  cases p <;> rfl

theorem legalValues_blockValues {e : Encoding} (h : e.Legal) :
    LegalValues (.ofParams (blockValues e)) where
  scaleFactor := by simpa [ParamTensors.ofParams, blockValues] using h.scaleFactor_mem
  scaleLv2 := by simpa [ParamTensors.ofParams, blockValues] using h.scaleLv2_mem
  scaleLv3 q hq := by
    obtain ⟨i, -, hq⟩ := List.mem_flatMap.mp hq
    obtain ⟨j, -, rfl⟩ := List.mem_map.mp hq
    exact h.scaleLv3_mem i j
  sign q hq := by
    obtain ⟨i, -, hq⟩ := List.mem_flatMap.mp hq
    obtain ⟨j, -, hq⟩ := List.mem_flatMap.mp hq
    obtain ⟨k, -, rfl⟩ := List.mem_map.mp hq
    exact h.sign_mem i j k
  mant q hq := by
    obtain ⟨i, -, hq⟩ := List.mem_flatMap.mp hq
    obtain ⟨j, -, hq⟩ := List.mem_flatMap.mp hq
    obtain ⟨k, -, rfl⟩ := List.mem_map.mp hq
    exact h.mant_mem i j k

theorem legalValues_flatMap {l : List Encoding} (h : ∀ e ∈ l, e.Legal) :
    LegalValues (.ofParams fun p => l.flatMap fun e => blockValues e p) where
  scaleFactor q hq := by
    obtain ⟨e, he, hq⟩ := List.mem_flatMap.mp hq
    exact (legalValues_blockValues (h e he)).scaleFactor q hq
  scaleLv2 q hq := by
    obtain ⟨e, he, hq⟩ := List.mem_flatMap.mp hq
    exact (legalValues_blockValues (h e he)).scaleLv2 q hq
  scaleLv3 q hq := by
    obtain ⟨e, he, hq⟩ := List.mem_flatMap.mp hq
    exact (legalValues_blockValues (h e he)).scaleLv3 q hq
  sign q hq := by
    obtain ⟨e, he, hq⟩ := List.mem_flatMap.mp hq
    exact (legalValues_blockValues (h e he)).sign q hq
  mant q hq := by
    obtain ⟨e, he, hq⟩ := List.mem_flatMap.mp hq
    exact (legalValues_blockValues (h e he)).mant q hq

structure LegalParams (x : Tensor ℚ) (params : Tensor Encoding) : Prop where
  shape_ne_nil : x.shape ≠ []
  mod_eq_zero : x.shape.getLastD 0 % 64 = 0
  shape_eq : params.shape = x.shape.dropLast ++ [x.shape.getLastD 0 / 64]
  legal : ∀ e ∈ params.data, e.Legal

theorem LegalParams.validate {x : Tensor ℚ} {params : Tensor Encoding} (h : LegalParams x params)
    {rt : Runtime} (hfl : rt.fl = .finite) (tag : String) :
    validateHif4Params rt (emitted params) x.shape tag = .ok [] := by
  have hexp : expectedHif4ParamShapes x.shape = .ok fun p => params.shape ++ p.axes := by
    have hlast : x.shape.getLast? = some (x.shape.getLastD 0) := by
      rw [List.getLastD_eq_getLast?, List.getLast?_eq_some_getLast h.shape_ne_nil,
        Option.getD_some]
    simp only [expectedHif4ParamShapes, hlast, h.mod_eq_zero, ne_eq, not_true_eq_false, if_false,
      h.shape_eq]
  exact ((holds_emittedItems params).validate_eq_nil_iff hfl hexp none).mpr
    (legalValues_flatMap h.legal)

section Producers

variable {x : Tensor ℚ} {p : Tensor Encoding}

theorem quantizeHif4_legalParams {n : ℕ} (hn : 2 ≤ n) {imp : Option (Tensor ℚ)}
    {chunkRows : Option ℕ} (h : quantizeHif4 x n imp chunkRows = some p) : LegalParams x p := by
  obtain ⟨hb, hshape, hf⟩ := quantizeHif4_spec hn h
  refine ⟨hb.1, hb.2.1, hshape, fun e he => ?_⟩
  obtain ⟨b, -, iw, -, rfl⟩ := (Lists.exists_mem_of_forall₂ hf).1 e he
  exact searchBlock_legal hn

theorem standardHif4Quantize_legalParams (hmod : x.shape.getLastD 0 % 64 = 0)
    (h : standardHif4Quantize x = some p) : LegalParams x p := by
  simp only [standardHif4Quantize] at h
  split_ifs at h with hne
  obtain rfl := Option.some.inj h
  refine ⟨fun hnil => hne (Or.inl hnil), hmod, rfl, fun e he => ?_⟩
  obtain ⟨b, -, rfl⟩ := List.mem_map.mp he
  exact standardBlock_legal _

theorem exists_standardHif4Quantize (hne : x.shape ≠ []) (h0 : x.shape.getLastD 0 ≠ 0)
    (hmod : x.shape.getLastD 0 % 64 = 0) : ∃ p, standardHif4Quantize x = some p := by
  have hdiv := Nat.div_mul_cancel (Nat.dvd_of_mod_eq_zero hmod)
  have hguard : ¬ (x.shape = [] ∨ x.shape.getLastD 0 = 0) := not_or.mpr ⟨hne, h0⟩
  unfold standardHif4Quantize
  dsimp only
  rw [if_neg hguard, if_neg (by rw [hdiv]; simp)]
  exact ⟨_, rfl⟩

theorem LegalParams.of_eq {params : Tensor Encoding} (h : LegalParams x params)
    (hp : p.shape = params.shape ∧ ∀ e ∈ p.data, e.Legal) : LegalParams x p :=
  ⟨h.shape_ne_nil, h.mod_eq_zero, hp.1.trans h.shape_eq, hp.2⟩

end Producers

end Emitted

/-- In exact arithmetic every encoding the quantizers emit passes the validator, and the validator
passes exactly the legal ones. -/
theorem validator_accepts_exactly_legal {rt : Runtime} (hfl : rt.fl = .finite) (tag : String) :
    (∀ (x : Tensor ℚ) (n : ℕ) (imp : Option (Tensor ℚ)) (chunkRows : Option ℕ), 2 ≤ n →
      (Blockable x → Fits x imp → chunkRows ≠ some 0 →
        ∃ p, quantizeHif4 x n imp chunkRows = some p) ∧
      ∀ p, quantizeHif4 x n imp chunkRows = some p →
        validateHif4Params rt (emitted p) x.shape tag = .ok []) ∧
    (∀ x : Tensor ℚ, x.shape ≠ [] → x.shape.getLastD 0 % 64 = 0 →
      (x.shape.getLastD 0 ≠ 0 → ∃ p, standardHif4Quantize x = some p) ∧
      ∀ p, standardHif4Quantize x = some p →
        validateHif4Params rt (emitted p) x.shape tag = .ok []) ∧
    (∀ (wRot : Tensor ℚ) (params : Tensor Encoding) (calibActs : List (Tensor ℚ))
      (D : Option (Tensor ℚ)) (H : Option (List (List ℚ))), LegalParams wRot params →
      (∀ out K, wRot.shape = [out, K] → RotationFits D H K →
        (∀ act ∈ calibActs, ∃ m, act.shape = [m, K]) →
        ∃ p, applyBlockGptq params wRot calibActs D H = some p) ∧
      ∀ p, applyBlockGptq params wRot calibActs D H = some p →
        validateHif4Params rt (emitted p) wRot.shape tag = .ok []) ∧
    (∀ (actFp : Tensor ℚ) (params : Tensor Encoding) (gramW : Option (Tensor ℚ)),
      LegalParams actFp params →
      (∀ seq K, actFp.shape = [seq, K] → (∀ g, gramW = some g → g.shape = [K / 64, 64, 64]) →
        ∃ p, applyActivationGptq params actFp gramW = some p) ∧
      ∀ p, applyActivationGptq params actFp gramW = some p →
        validateHif4Params rt (emitted p) actFp.shape tag = .ok []) ∧
    (∀ (sub : Option String) (items : List (Value × Value)) (shape : List ℕ)
      (expected : Param → List ℕ) (values : Param → List ℚ),
      expectedHif4ParamShapes shape = .ok expected → Holds items expected values →
      (validateHif4Params rt (.dict sub items) shape tag = .ok [] ↔
        LegalValues (.ofParams values))) := by
  refine ⟨?_, ?_, ?_, ?_, ?_⟩
  · intro x n imp chunkRows hn
    exact ⟨fun hb hi hc => exists_quantizeHif4 hn hb hi chunkRows hc,
      fun p hp => (quantizeHif4_legalParams hn hp).validate hfl tag⟩
  · intro x hne hmod
    exact ⟨fun h0 => exists_standardHif4Quantize hne h0 hmod,
      fun p hp => (standardHif4Quantize_legalParams hmod hp).validate hfl tag⟩
  · intro wRot params calibActs D H hlegal
    constructor
    · intro out K hw hfit hacts
      have hlast : wRot.shape.getLastD 0 = K := by simp [hw]
      refine exists_applyBlockGptq hfit (hlast ▸ hlegal.mod_eq_zero) hw ?_ hacts
      rw [hlegal.shape_eq, hlast, hw]
      rfl
    · intro p hp
      exact (hlegal.of_eq (applyBlockGptq_legal hp hlegal.legal)).validate hfl tag
  · intro actFp params gramW hlegal
    constructor
    · intro seq K ha hg
      have hlast : actFp.shape.getLastD 0 = K := by simp [ha]
      refine exists_applyActivationGptq (hlast ▸ hlegal.mod_eq_zero) ha ?_ hg
      rw [hlegal.shape_eq, hlast, ha]
      rfl
    · intro p hp
      exact (hlegal.of_eq (applyActivationGptq_legal hp hlegal.legal)).validate hfl tag
  · intro sub items shape expected values hexp hholds
    exact hholds.validate_eq_nil_iff hfl hexp sub

/-- A row of ones, quantized by the reference and compensated as an activation. -/
theorem validator_accepts_row_of_ones :
    ∃ p q, standardHif4Quantize ⟨[1, 64], List.replicate 64 1, rfl⟩ = some p ∧
      validateHif4Params exactRuntime (emitted p) [1, 64] "w" = .ok [] ∧
      applyActivationGptq p ⟨[1, 64], List.replicate 64 1, rfl⟩
        (some ⟨[1, 64, 64], List.replicate 4096 1, List.length_replicate⟩) = some q ∧
      validateHif4Params exactRuntime (emitted q) [1, 64] "w" = .ok [] := by
  obtain ⟨-, hstandard, -, hactivation, -⟩ :=
    validator_accepts_exactly_legal (show exactRuntime.fl = .finite from rfl) "w"
  obtain ⟨hex, hvalid⟩ := hstandard ⟨[1, 64], List.replicate 64 1, rfl⟩ (by simp) rfl
  obtain ⟨p, hp⟩ := hex (by simp)
  have hlegal := standardHif4Quantize_legalParams rfl hp
  obtain ⟨hex', hvalid'⟩ := hactivation ⟨[1, 64], List.replicate 64 1, rfl⟩ p
    (some ⟨[1, 64, 64], List.replicate 4096 1, List.length_replicate⟩) hlegal
  obtain ⟨q, hq⟩ := hex' 1 64 rfl (by
    rintro g hg
    obtain rfl := Option.some.inj hg
    rfl)
  exact ⟨p, q, hp, hvalid p hp, hq, hvalid' q hq⟩

end K8sLearn.SelfCheck
