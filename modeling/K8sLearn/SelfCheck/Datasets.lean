import K8sLearn.Lib.Checked
import K8sLearn.SelfCheck.Gate

/-! # The mini-sample datasets

The self-check reads two files and normalises what they hold. A group that is let through
carries its invariant: sixteen channels to a scale, one number of channels in a linear
group, heads that divide each other and one sequence length in an attention sample.
-/

namespace K8sLearn.SelfCheck

/-- A `ValueError`, `TypeError` or `KeyError` with its text. -/
structure Rejection where
  cls : String
  message : String

def Rejection.toPyError (r : Rejection) : PyError := .exception r.cls r.message

def valueError {α : Type} (message : String) : Except Rejection α := .error ⟨"ValueError", message⟩

def typeError {α : Type} (message : String) : Except Rejection α := .error ⟨"TypeError", message⟩

/-- The text of a `KeyError` is its argument in quotes. -/
def keyError {α : Type} (message : String) : Except Rejection α :=
  .error ⟨"KeyError", "\"" ++ message ++ "\""⟩

def reprNames (names : List String) : String :=
  "[" ++ ", ".intercalate (names.map fun name => "'" ++ name ++ "'") ++ "]"

/-- A quantized tensor and its scales, one for each 16 channels. -/
structure Nvfp4Pair extends Pair where
  shape_ne_nil : quant.shape ≠ []
  mod_eq_zero : quant.shape.getLastD 0 % 16 = 0
  scale_shape : scale.shape = quant.shape.dropLast ++ [quant.shape.getLastD 0 / 16]

/-- `pair[0].shape[-1]`. -/
def Nvfp4Pair.channels (p : Nvfp4Pair) : ℕ := p.quant.shape.getLastD 0

section Normalize

/-- The body of `_normalize_nvfp4_pair`, once the value is unpacked. -/
def normalizeTensors (quant scale : Value) (tag : String) : Except Rejection Nvfp4Pair :=
  match quant, scale with
  | .object (.tensor none quant), .object (.tensor none scale) =>
    let channels := quant.shape.getLastD 0
    let expected := quant.shape.dropLast ++ [channels / 16]
    if hne : quant.shape = [] then
      valueError s!"{tag}: quant tensor must have at least one dimension"
    else if hmod : channels % 16 ≠ 0 then
      valueError s!"{tag}: last dimension must be divisible by 16"
    else if hscale : scale.shape ≠ expected then
      valueError
        s!"{tag}: scale shape {reprShape scale.shape} !=  expected {reprShape expected}"
    else .ok ⟨⟨quant, scale⟩, hne, not_not.mp hmod, not_not.mp hscale⟩
  | _, _ => typeError s!"{tag}: quant and scale must be plain torch.Tensor"

def normalizeNvfp4Pair (value : Value) (tag : String) : Except Rejection Nvfp4Pair :=
  match value with
  | .list [quant, scale] | .tuple [quant, scale] => normalizeTensors quant scale tag
  | _ => valueError s!"{tag}: expected [quant_tensor, scale_tensor]"

/-- `[name for name in required if name not in raw]`. -/
def missingKeys (items : List (Value × Value)) (required : List String) : List String :=
  required.filter fun name => (PyValue.lookup name.toList items).isNone

/-- `raw[name]`, for a name that is not missing. -/
def getKey (items : List (Value × Value)) (name : String) : Value :=
  (PyValue.lookup name.toList items).getD .none

abbrev Nvfp4Pair.Activation (weight : Nvfp4Pair) : Type :=
  {p : Nvfp4Pair // p.channels = weight.channels}

structure LinearGroup where
  weight : Nvfp4Pair
  calib : List weight.Activation
  test : List weight.Activation

def normalizeActivation (weight : Nvfp4Pair) (item : Value) (tag : String) :
    Except Rejection weight.Activation := do
  let pair ← normalizeNvfp4Pair item tag
  if h : pair.channels = weight.channels then return ⟨pair, h⟩
  else valueError s!"{tag}: channels {pair.channels} != weight channels {weight.channels}"

/-- `[f(item, f"{tag}[{i}]") for i, item in enumerate(items)]`. -/
def normalizeEach {α : Type} (f : Value → String → Except Rejection α) (tag : String)
    (items : List Value) : Except Rejection (List α) :=
  items.zipIdx.mapM fun item => f item.1 s!"{tag}[{item.2}]"

def caseLists (items : List (Value × Value)) (calibName testName tag : String) :
    Except Rejection (List Value × List Value) :=
  match getKey items calibName, getKey items testName with
  | .list [], .list _ => valueError s!"{tag}: calibration list must not be empty"
  | .list _, .list [] => valueError s!"{tag}: test list must not be empty"
  | .list calib, .list test => .ok (calib, test)
  | .list _, _ => typeError s!"{tag}: {testName} must be list"
  | _, _ => typeError s!"{tag}: {calibName} must be list"

def normalizeLinearGroup (rawGroup : Value) (groupIdx : ℕ) : Except Rejection LinearGroup :=
  let tag := s!"linear group {groupIdx}"
  match rawGroup with
  | .dict _ items =>
    match missingKeys items ["weight", "calib_activation_list", "test_activation_list"] with
    | [] => do
      let weight ← normalizeNvfp4Pair (getKey items "weight") s!"{tag}.weight"
      let raw ← caseLists items "calib_activation_list" "test_activation_list" tag
      let calib ← normalizeEach (normalizeActivation weight) s!"{tag}.calib_activation_list" raw.1
      let tests ← normalizeEach (normalizeActivation weight) s!"{tag}.test_activation_list" raw.2
      return ⟨weight, calib, tests⟩
    | missing => keyError s!"{tag}: missing keys {reprNames missing}"
  | _ => typeError s!"{tag}: expected dict"

def normalizeDataset {α : Type} (file : String) (f : Value → ℕ → Except Rejection α)
    (rawData : Value) : Except Rejection (List α) :=
  match rawData with
  | .list [] => valueError s!"{file} must contain at least one group"
  | .list groups => groups.zipIdx.mapM fun group => f group.1 group.2
  | _ => typeError s!"{file} root must be a list"

def normalizeLinearDataset : Value → Except Rejection (List LinearGroup) :=
  normalizeDataset "linear.pt" normalizeLinearGroup

/-- The head counts of an attention group: positive, and queries share key heads evenly. -/
structure Heads where
  qNumHeads : ℕ
  kvNumHeads : ℕ
  headDim : ℕ
  qNumHeads_pos : 0 < qNumHeads
  kvNumHeads_pos : 0 < kvNumHeads
  headDim_pos : 0 < headDim
  dvd : kvNumHeads ∣ qNumHeads

def Heads.hidden (heads : Heads) (role : Role) : ℕ :=
  (if role = .q then heads.qNumHeads else heads.kvNumHeads) * heads.headDim

/-- One case of an attention group: three matrices over the same tokens. -/
structure AttentionSample (heads : Heads) where
  pair : Role → Nvfp4Pair
  seq : ℕ
  shape_eq : ∀ role, (pair role).quant.shape = [seq, heads.hidden role]

structure AttentionGroup where
  heads : Heads
  calib : List (AttentionSample heads)
  test : List (AttentionSample heads)

theorem shape_eq_of_length {shape : List ℕ} {c : ℕ} (hl : shape.length = 2)
    (hc : shape.getLastD 0 = c) : shape = [shape.headD 0, c] := by
  obtain ⟨a, b, rfl⟩ := List.length_eq_two.mp hl
  simp only [List.getLastD_cons, List.getLastD_nil] at hc
  rw [hc, List.headD_cons]

def checkHidden (heads : Heads) (role : Role) (shape : List ℕ) (tag : String) :
    Except Rejection (PLift (shape.getLastD 0 = heads.hidden role)) :=
  if h : shape.getLastD 0 = heads.hidden role then .ok ⟨h⟩
  else
    let side := if role = .q then "q" else "kv"
    valueError (s!"{tag}.{role.name}: hidden size {shape.getLastD 0} != " ++
      s!"{side}_num_heads*head_dim {heads.hidden role}")

def normalizeShapes (heads : Heads) (q k v : Nvfp4Pair) (tag : String) :
    Except Rejection (AttentionSample heads) :=
  let shape (p : Nvfp4Pair) := p.quant.shape
  if hdim : (shape q).length = 2 ∧ (shape k).length = 2 ∧ (shape v).length = 2 then do
    let hq ← checkHidden heads .q (shape q) tag
    let hk ← checkHidden heads .k (shape k) tag
    let hv ← checkHidden heads .v (shape v) tag
    if hseq : (shape q).headD 0 = (shape k).headD 0 ∧ (shape k).headD 0 = (shape v).headD 0 then
      return {
        pair := fun | .q => q | .k => k | .v => v
        seq := (shape q).headD 0
        shape_eq := by
          obtain ⟨hqk, hkv⟩ := hseq
          rintro (_ | _ | _)
          · exact shape_eq_of_length hdim.1 hq.down
          · rw [hqk]
            exact shape_eq_of_length hdim.2.1 hk.down
          · rw [hqk, hkv]
            exact shape_eq_of_length hdim.2.2 hv.down }
    else valueError s!"{tag}: Q/K/V sequence lengths must match"
  else valueError s!"{tag}: Q/K/V quant tensors must be 2D [seq_len, hidden]"

def normalizeAttentionSample (heads : Heads) (sample : Value) (tag : String) :
    Except Rejection (AttentionSample heads) :=
  match sample with
  | .dict _ items =>
    match missingKeys items ["q", "k", "v"] with
    | [] => do
      let q ← normalizeNvfp4Pair (getKey items "q") s!"{tag}.q"
      let k ← normalizeNvfp4Pair (getKey items "k") s!"{tag}.k"
      let v ← normalizeNvfp4Pair (getKey items "v") s!"{tag}.v"
      normalizeShapes heads q k v tag
    | missing => keyError s!"{tag}:  missing keys {reprNames missing}"
  | _ => typeError s!"{tag}: expected dict with q/k/v"

/-- `value` where `type(value) is int and value > 0`. -/
def positiveInt : Value → Option {n : ℕ // 0 < n}
  | .int (.ofNat (n + 1)) => some ⟨n + 1, n.succ_pos⟩
  | _ => none

def normalizeHeads (items : List (Value × Value)) (tag : String) : Except Rejection Heads :=
  let positive name := positiveInt (getKey items name)
  match positive "q_num_heads", positive "kv_num_heads", positive "head_dim" with
  | some q, some kv, some dim =>
    if h : q.val % kv.val ≠ 0 then
      valueError s!"{tag}: q_num_heads must be divisible by kv_num_heads"
    else .ok ⟨q, kv, dim, q.2, kv.2, dim.2, Nat.dvd_of_mod_eq_zero (not_not.mp h)⟩
  | _, _, _ =>
    valueError s!"{tag}: q_num_heads, kv_num_heads and head_dim must be positive integers"

def normalizeAttentionGroup (rawGroup : Value) (groupIdx : ℕ) : Except Rejection AttentionGroup :=
  let tag := s!"attention group {groupIdx}"
  match rawGroup with
  | .dict _ items =>
    match missingKeys items ["q_num_heads", "kv_num_heads", "head_dim", "calib", "test"] with
    | [] => do
      let heads ← normalizeHeads items tag
      let raw ← caseLists items "calib" "test" tag
      let calib ← normalizeEach (normalizeAttentionSample heads) s!"{tag}.calib" raw.1
      let tests ← normalizeEach (normalizeAttentionSample heads) s!"{tag}.test" raw.2
      return ⟨heads, calib, tests⟩
    | missing => keyError s!"{tag}: missing keys {reprNames missing}"
  | _ => typeError s!"{tag}: expected dict"

def normalizeAttentionDataset : Value → Except Rejection (List AttentionGroup) :=
  normalizeDataset "attn.pt" normalizeAttentionGroup

end Normalize

section Exact

def IsPair (value : Value) (p : Nvfp4Pair) : Prop :=
  let items := [p.quant, p.scale].map fun t => (.object (.tensor none t) : Value)
  value = .list items ∨ value = .tuple items

/-- `raw[name]`, where `raw` is a dictionary that has it. -/
def entry (raw : Value) (name : String) : Option Value :=
  match raw with
  | .dict _ items => PyValue.lookup name.toList items
  | _ => none

def IsCases {α : Type} (R : Value → α → Prop) (raw : Value) (name : String) (cases : List α) :
    Prop :=
  ∃ items, entry raw name = some (.list items) ∧ items ≠ [] ∧ List.Forall₂ R items cases

structure IsLinearGroup (raw : Value) (g : LinearGroup) : Prop where
  weight : ∃ w, entry raw "weight" = some w ∧ IsPair w g.weight
  calib : IsCases (fun v (p : g.weight.Activation) => IsPair v p.1) raw "calib_activation_list"
    g.calib
  test : IsCases (fun v (p : g.weight.Activation) => IsPair v p.1) raw "test_activation_list"
    g.test

def IsSample {heads : Heads} (raw : Value) (s : AttentionSample heads) : Prop :=
  ∀ role : Role, ∃ v, entry raw role.name = some v ∧ IsPair v (s.pair role)

structure IsAttentionGroup (raw : Value) (g : AttentionGroup) : Prop where
  qNumHeads : entry raw "q_num_heads" = some (.int g.heads.qNumHeads)
  kvNumHeads : entry raw "kv_num_heads" = some (.int g.heads.kvNumHeads)
  headDim : entry raw "head_dim" = some (.int g.heads.headDim)
  calib : IsCases IsSample raw "calib" g.calib
  test : IsCases IsSample raw "test" g.test

def IsDataset {α : Type} (R : Value → α → Prop) (raw : Value) (groups : List α) : Prop :=
  ∃ raws, raw = .list raws ∧ raws ≠ [] ∧ List.Forall₂ R raws groups

variable {tag : String}

theorem normalizeTensors_eq_ok_iff {quant scale : Value} {p : Nvfp4Pair} :
    normalizeTensors quant scale tag = .ok p ↔
      quant = .object (.tensor none p.quant) ∧ scale = .object (.tensor none p.scale) := by
  constructor
  · intro h
    unfold normalizeTensors at h
    split at h
    · dsimp only at h
      split_ifs at h
      · cases h
      · cases h
      · cases h
      · obtain rfl := Except.ok.inj h
        exact ⟨rfl, rfl⟩
    · cases h
  · rintro ⟨rfl, rfl⟩
    have hmod : ¬ p.quant.shape.getLastD 0 % 16 ≠ 0 := not_not.mpr p.mod_eq_zero
    have hscale : ¬ p.scale.shape ≠ p.quant.shape.dropLast ++ [p.quant.shape.getLastD 0 / 16] :=
      not_not.mpr p.scale_shape
    simp only [normalizeTensors, dif_neg p.shape_ne_nil, dif_neg hmod, dif_neg hscale]

theorem normalizeNvfp4Pair_eq_ok_iff {value : Value} {p : Nvfp4Pair} :
    normalizeNvfp4Pair value tag = .ok p ↔ IsPair value p := by
  constructor
  · intro h
    unfold normalizeNvfp4Pair at h
    split at h
    · obtain ⟨rfl, rfl⟩ := normalizeTensors_eq_ok_iff.mp h
      exact .inl rfl
    · obtain ⟨rfl, rfl⟩ := normalizeTensors_eq_ok_iff.mp h
      exact .inr rfl
    · cases h
  · rintro (rfl | rfl)
    · exact normalizeTensors_eq_ok_iff.mpr ⟨rfl, rfl⟩
    · exact normalizeTensors_eq_ok_iff.mpr ⟨rfl, rfl⟩

theorem normalizeActivation_eq_ok_iff (weight : Nvfp4Pair) (item : Value) (tag : String)
    (p : weight.Activation) :
    normalizeActivation weight item tag = .ok p ↔ IsPair item p.1 := by
  constructor
  · intro h
    obtain ⟨pair, hpair, h⟩ := Checked.bind_eq_ok.mp h
    split_ifs at h with hc
    · obtain rfl := Except.ok.inj h
      exact normalizeNvfp4Pair_eq_ok_iff.mp hpair
    · cases h
  · intro h
    refine Checked.bind_eq_ok.mpr ⟨p.1, normalizeNvfp4Pair_eq_ok_iff.mpr h, ?_⟩
    rw [dif_pos p.2]
    rfl

theorem normalizeEach_eq_ok_iff {α : Type} {f : Value → String → Except Rejection α}
    {R : Value → α → Prop} (h : ∀ v tag a, f v tag = .ok a ↔ R v a) {items : List Value}
    {as : List α} : normalizeEach f tag items = .ok as ↔ List.Forall₂ R items as :=
  Checked.mapM_zipIdx_eq_ok_iff fun v i a => h v s!"{tag}[{i}]" a

section Keys

variable {sub : Option String} {items : List (Value × Value)} {names : List String}

theorem missingKeys_eq_nil_iff (sub : Option String) :
    missingKeys items names = [] ↔ ∀ name ∈ names, ∃ v, entry (.dict sub items) name = some v := by
  rw [missingKeys, List.filter_eq_nil_iff]
  refine forall₂_congr fun name _ => ?_
  rw [Bool.not_eq_true, Option.isNone_eq_false_iff, Option.isSome_iff_exists]
  rfl

theorem getKey_eq {name : String} {v : Value} (h : entry (.dict sub items) name = some v) :
    getKey items name = v := by
  rw [getKey, show PyValue.lookup name.toList items = some v from h, Option.getD_some]

theorem entry_eq_some (sub : Option String) (h : missingKeys items names = []) {name : String}
    (hm : name ∈ names) : entry (.dict sub items) name = some (getKey items name) := by
  obtain ⟨v, hv⟩ := (missingKeys_eq_nil_iff sub).mp h name hm
  rw [hv, getKey_eq hv]

theorem caseLists_eq_ok_iff {calibName testName : String} {raw : List Value × List Value} :
    caseLists items calibName testName tag = .ok raw ↔
      (getKey items calibName = .list raw.1 ∧ raw.1 ≠ []) ∧
        getKey items testName = .list raw.2 ∧ raw.2 ≠ [] := by
  obtain ⟨calib, test⟩ := raw
  constructor
  · intro h
    unfold caseLists at h
    split at h
    · cases h
    · cases h
    · case h_3 hc ht hcalib htest =>
      obtain ⟨rfl, rfl⟩ := Prod.mk.inj (Except.ok.inj h)
      exact ⟨⟨hcalib, hc⟩, htest, ht⟩
    · cases h
    · cases h
  · rintro ⟨⟨hcalib, hc⟩, htest, ht⟩
    obtain ⟨c, cs, rfl⟩ := List.exists_cons_of_ne_nil hc
    obtain ⟨t, ts, rfl⟩ := List.exists_cons_of_ne_nil ht
    simp only [caseLists, hcalib, htest]

end Keys

theorem normalizeLinearGroup_eq_ok_iff (raw : Value) (i : ℕ) (g : LinearGroup) :
    normalizeLinearGroup raw i = .ok g ↔ IsLinearGroup raw g := by
  constructor
  · intro h
    unfold normalizeLinearGroup at h
    split at h
    · case h_1 sub items =>
      split at h
      · case h_1 hmissing =>
        have hkey := @entry_eq_some items _ sub hmissing
        obtain ⟨weight, hw, h⟩ := Checked.bind_eq_ok.mp h
        obtain ⟨⟨calibRaw, testRaw⟩, hraw, h⟩ := Checked.bind_eq_ok.mp h
        obtain ⟨calib, hc, h⟩ := Checked.bind_eq_ok.mp h
        obtain ⟨test, ht, h⟩ := Checked.bind_eq_ok.mp h
        obtain rfl := Except.ok.inj h
        obtain ⟨⟨hcr, hcne⟩, htr, htne⟩ := caseLists_eq_ok_iff.mp hraw
        rw [normalizeEach_eq_ok_iff (normalizeActivation_eq_ok_iff weight)] at hc ht
        constructor
        · exact ⟨_, hkey (by simp), normalizeNvfp4Pair_eq_ok_iff.mp hw⟩
        · exact ⟨calibRaw, (hkey (by simp)).trans (congrArg some hcr), hcne, hc⟩
        · exact ⟨testRaw, (hkey (by simp)).trans (congrArg some htr), htne, ht⟩
      · cases h
    · cases h
  · rintro ⟨⟨w, hw, hpair⟩, ⟨calibRaw, hcr, hcne, hc⟩, ⟨testRaw, htr, htne, ht⟩⟩
    cases raw with
    | dict sub items =>
      have hmissing : missingKeys items
          ["weight", "calib_activation_list", "test_activation_list"] = [] := by
        rw [missingKeys_eq_nil_iff sub]
        simp only [List.mem_cons, List.not_mem_nil, or_false]
        rintro name (rfl | rfl | rfl)
        · exact ⟨w, hw⟩
        · exact ⟨_, hcr⟩
        · exact ⟨_, htr⟩
      simp only [normalizeLinearGroup, hmissing]
      rw [getKey_eq hw]
      refine Checked.bind_eq_ok.mpr ⟨g.weight, normalizeNvfp4Pair_eq_ok_iff.mpr hpair, ?_⟩
      refine Checked.bind_eq_ok.mpr ⟨(calibRaw, testRaw), caseLists_eq_ok_iff.mpr
        ⟨⟨getKey_eq hcr, hcne⟩, getKey_eq htr, htne⟩, ?_⟩
      refine Checked.bind_eq_ok.mpr ⟨g.calib,
        (normalizeEach_eq_ok_iff (normalizeActivation_eq_ok_iff g.weight)).mpr hc, ?_⟩
      exact Checked.bind_eq_ok.mpr ⟨g.test,
        (normalizeEach_eq_ok_iff (normalizeActivation_eq_ok_iff g.weight)).mpr ht, rfl⟩
    | _ => cases hw

theorem checkHidden_eq_ok {heads : Heads} {role : Role} {shape : List ℕ}
    (h : shape.getLastD 0 = heads.hidden role) :
    checkHidden heads role shape tag = .ok ⟨h⟩ := dif_pos h

theorem normalizeShapes_eq_ok_iff {heads : Heads} {q k v : Nvfp4Pair}
    {s : AttentionSample heads} :
    normalizeShapes heads q k v tag = .ok s ↔ s.pair .q = q ∧ s.pair .k = k ∧ s.pair .v = v := by
  constructor
  · intro h
    unfold normalizeShapes at h
    dsimp only at h
    split at h
    · obtain ⟨hq, -, h⟩ := Checked.bind_eq_ok.mp h
      obtain ⟨hk, -, h⟩ := Checked.bind_eq_ok.mp h
      obtain ⟨hv, -, h⟩ := Checked.bind_eq_ok.mp h
      split_ifs at h
      · obtain rfl := Except.ok.inj h
        exact ⟨rfl, rfl, rfl⟩
      · cases h
    · cases h
  · rintro ⟨rfl, rfl, rfl⟩
    have hdim : ∀ role, (s.pair role).quant.shape.length = 2 := by simp [s.shape_eq]
    have hlast : ∀ role, (s.pair role).quant.shape.getLastD 0 = heads.hidden role := by
      simp [s.shape_eq]
    have hhead : ∀ role, (s.pair role).quant.shape.headD 0 = s.seq := by simp [s.shape_eq]
    simp only [normalizeShapes, dif_pos (And.intro (hdim .q) (And.intro (hdim .k) (hdim .v))),
      checkHidden_eq_ok (hlast .q), checkHidden_eq_ok (hlast .k), checkHidden_eq_ok (hlast .v)]
    have hseq : (s.pair .q).quant.shape.headD 0 = (s.pair .k).quant.shape.headD 0 ∧
        (s.pair .k).quant.shape.headD 0 = (s.pair .v).quant.shape.headD 0 :=
      ⟨(hhead .q).trans (hhead .k).symm, (hhead .k).trans (hhead .v).symm⟩
    refine (dif_pos hseq).trans (congrArg Except.ok ?_)
    obtain ⟨pair, seq, hshape⟩ := s
    congr
    · funext role
      cases role <;> rfl
    · exact hhead .q

theorem normalizeAttentionSample_eq_ok_iff (heads : Heads) (raw : Value) (tag : String)
    (s : AttentionSample heads) :
    normalizeAttentionSample heads raw tag = .ok s ↔ IsSample raw s := by
  constructor
  · intro h
    unfold normalizeAttentionSample at h
    split at h
    · case h_1 sub items =>
      split at h
      · case h_1 hmissing =>
        have hkey := @entry_eq_some items _ sub hmissing
        obtain ⟨q, hq, h⟩ := Checked.bind_eq_ok.mp h
        obtain ⟨k, hk, h⟩ := Checked.bind_eq_ok.mp h
        obtain ⟨v, hv, h⟩ := Checked.bind_eq_ok.mp h
        obtain ⟨rfl, rfl, rfl⟩ := normalizeShapes_eq_ok_iff.mp h
        rintro (_ | _ | _)
        · exact ⟨_, hkey (by simp [Role.name]), normalizeNvfp4Pair_eq_ok_iff.mp hq⟩
        · exact ⟨_, hkey (by simp [Role.name]), normalizeNvfp4Pair_eq_ok_iff.mp hk⟩
        · exact ⟨_, hkey (by simp [Role.name]), normalizeNvfp4Pair_eq_ok_iff.mp hv⟩
      · cases h
    · cases h
  · intro h
    obtain ⟨q, hq, hqp⟩ := h .q
    obtain ⟨k, hk, hkp⟩ := h .k
    obtain ⟨v, hv, hvp⟩ := h .v
    cases raw with
    | dict sub items =>
      have hmissing : missingKeys items ["q", "k", "v"] = [] := by
        rw [missingKeys_eq_nil_iff sub]
        simp only [List.mem_cons, List.not_mem_nil, or_false]
        rintro name (rfl | rfl | rfl)
        · exact ⟨q, hq⟩
        · exact ⟨k, hk⟩
        · exact ⟨v, hv⟩
      simp only [normalizeAttentionSample, hmissing]
      have hgq : getKey items "q" = q := getKey_eq hq
      have hgk : getKey items "k" = k := getKey_eq hk
      have hgv : getKey items "v" = v := getKey_eq hv
      rw [hgq, hgk, hgv]
      refine Checked.bind_eq_ok.mpr ⟨_, normalizeNvfp4Pair_eq_ok_iff.mpr hqp, ?_⟩
      refine Checked.bind_eq_ok.mpr ⟨_, normalizeNvfp4Pair_eq_ok_iff.mpr hkp, ?_⟩
      refine Checked.bind_eq_ok.mpr ⟨_, normalizeNvfp4Pair_eq_ok_iff.mpr hvp, ?_⟩
      exact normalizeShapes_eq_ok_iff.mpr ⟨rfl, rfl, rfl⟩
    | _ => cases hq

theorem positiveInt_eq_some_iff {v : Value} {n : {n : ℕ // 0 < n}} :
    positiveInt v = some n ↔ v = .int n.1 := by
  constructor
  · intro h
    unfold positiveInt at h
    split at h
    · obtain rfl := Option.some.inj h
      rfl
    · cases h
  · rintro rfl
    obtain ⟨n, hn⟩ := n
    obtain ⟨n, rfl⟩ := Nat.exists_eq_succ_of_ne_zero hn.ne'
    rfl

theorem normalizeHeads_eq_ok_iff {items : List (Value × Value)} {heads : Heads} :
    normalizeHeads items tag = .ok heads ↔
      getKey items "q_num_heads" = .int heads.qNumHeads ∧
        getKey items "kv_num_heads" = .int heads.kvNumHeads ∧
        getKey items "head_dim" = .int heads.headDim := by
  constructor
  · intro h
    simp only [normalizeHeads] at h
    split at h
    · case h_1 q kv dim hq hkv hdim =>
      split_ifs at h
      · cases h
      · obtain rfl := Except.ok.inj h
        exact ⟨positiveInt_eq_some_iff.mp hq, positiveInt_eq_some_iff.mp hkv,
          positiveInt_eq_some_iff.mp hdim⟩
    · cases h
  · rintro ⟨hq, hkv, hdim⟩
    have hpos : ∀ {n : ℕ} (h : 0 < n), positiveInt (.int n) = some ⟨n, h⟩ :=
      fun h => positiveInt_eq_some_iff.mpr rfl
    have hdvd : ¬ heads.qNumHeads % heads.kvNumHeads ≠ 0 :=
      not_not.mpr (Nat.mod_eq_zero_of_dvd heads.dvd)
    simp only [normalizeHeads, hq, hkv, hdim, hpos heads.qNumHeads_pos, hpos heads.kvNumHeads_pos,
      hpos heads.headDim_pos, dif_neg hdvd]

theorem normalizeAttentionGroup_eq_ok_iff (raw : Value) (i : ℕ) (g : AttentionGroup) :
    normalizeAttentionGroup raw i = .ok g ↔ IsAttentionGroup raw g := by
  constructor
  · intro h
    unfold normalizeAttentionGroup at h
    split at h
    · case h_1 sub items =>
      split at h
      · case h_1 hmissing =>
        have hkey := @entry_eq_some items _ sub hmissing
        obtain ⟨heads, hh, h⟩ := Checked.bind_eq_ok.mp h
        obtain ⟨⟨calibRaw, testRaw⟩, hraw, h⟩ := Checked.bind_eq_ok.mp h
        obtain ⟨calib, hc, h⟩ := Checked.bind_eq_ok.mp h
        obtain ⟨test, ht, h⟩ := Checked.bind_eq_ok.mp h
        obtain rfl := Except.ok.inj h
        obtain ⟨hq, hkv, hdim⟩ := normalizeHeads_eq_ok_iff.mp hh
        obtain ⟨⟨hcr, hcne⟩, htr, htne⟩ := caseLists_eq_ok_iff.mp hraw
        rw [normalizeEach_eq_ok_iff (normalizeAttentionSample_eq_ok_iff heads)] at hc ht
        constructor
        · exact (hkey (by simp)).trans (congrArg some hq)
        · exact (hkey (by simp)).trans (congrArg some hkv)
        · exact (hkey (by simp)).trans (congrArg some hdim)
        · exact ⟨calibRaw, (hkey (by simp)).trans (congrArg some hcr), hcne, hc⟩
        · exact ⟨testRaw, (hkey (by simp)).trans (congrArg some htr), htne, ht⟩
      · cases h
    · cases h
  · rintro ⟨hq, hkv, hdim, ⟨calibRaw, hcr, hcne, hc⟩, ⟨testRaw, htr, htne, ht⟩⟩
    cases raw with
    | dict sub items =>
      have hmissing : missingKeys items
          ["q_num_heads", "kv_num_heads", "head_dim", "calib", "test"] = [] := by
        rw [missingKeys_eq_nil_iff sub]
        simp only [List.mem_cons, List.not_mem_nil, or_false]
        rintro name (rfl | rfl | rfl | rfl | rfl)
        exacts [⟨_, hq⟩, ⟨_, hkv⟩, ⟨_, hdim⟩, ⟨_, hcr⟩, ⟨_, htr⟩]
      simp only [normalizeAttentionGroup, hmissing]
      refine Checked.bind_eq_ok.mpr ⟨g.heads, normalizeHeads_eq_ok_iff.mpr
        ⟨getKey_eq hq, getKey_eq hkv, getKey_eq hdim⟩, ?_⟩
      refine Checked.bind_eq_ok.mpr ⟨(calibRaw, testRaw), caseLists_eq_ok_iff.mpr
        ⟨⟨getKey_eq hcr, hcne⟩, getKey_eq htr, htne⟩, ?_⟩
      refine Checked.bind_eq_ok.mpr ⟨g.calib,
        (normalizeEach_eq_ok_iff (normalizeAttentionSample_eq_ok_iff g.heads)).mpr hc, ?_⟩
      exact Checked.bind_eq_ok.mpr ⟨g.test,
        (normalizeEach_eq_ok_iff (normalizeAttentionSample_eq_ok_iff g.heads)).mpr ht, rfl⟩
    | _ => cases hq

theorem normalizeDataset_eq_ok_iff {α : Type} {file : String}
    {f : Value → ℕ → Except Rejection α} {R : Value → α → Prop}
    (h : ∀ raw i a, f raw i = .ok a ↔ R raw a) {raw : Value} {groups : List α} :
    normalizeDataset file f raw = .ok groups ↔ IsDataset R raw groups := by
  have hall : ∀ {raws : List Value}, raws.zipIdx.mapM (fun group => f group.1 group.2) =
      .ok groups ↔ List.Forall₂ R raws groups :=
    Checked.mapM_zipIdx_eq_ok_iff fun raw i a => h raw i a
  constructor
  · intro hn
    unfold normalizeDataset at hn
    split at hn
    · cases hn
    · case h_2 raws hne => exact ⟨raws, rfl, fun hnil => hne hnil, hall.mp hn⟩
    · cases hn
  · rintro ⟨raws, rfl, hne, hgroups⟩
    obtain ⟨raw, raws, rfl⟩ := List.exists_cons_of_ne_nil hne
    exact hall.mpr hgroups

theorem normalizeLinearDataset_eq_ok_iff {raw : Value} {groups : List LinearGroup} :
    normalizeLinearDataset raw = .ok groups ↔ IsDataset IsLinearGroup raw groups :=
  normalizeDataset_eq_ok_iff normalizeLinearGroup_eq_ok_iff

theorem normalizeAttentionDataset_eq_ok_iff {raw : Value} {groups : List AttentionGroup} :
    normalizeAttentionDataset raw = .ok groups ↔ IsDataset IsAttentionGroup raw groups :=
  normalizeDataset_eq_ok_iff normalizeAttentionGroup_eq_ok_iff

end Exact

section Errors

/-- The text begins with the tag, or with the tag behind the quote of a `KeyError`. -/
def Names (tag message : String) : Prop :=
  ∃ rest, message = tag ++ rest ∨ message = "\"" ++ tag ++ rest

namespace Names

variable {tag message : String}

theorem self (tag : String) : Names tag tag := ⟨"", .inl String.append_empty.symm⟩

theorem quote (tag : String) : Names tag ("\"" ++ tag) := ⟨"", .inr String.append_empty.symm⟩

theorem append (h : Names tag message) (rest : String) : Names tag (message ++ rest) := by
  obtain ⟨rest', rfl | rfl⟩ := h
  · exact ⟨rest' ++ rest, .inl String.append_assoc⟩
  · exact ⟨rest' ++ rest, .inr String.append_assoc⟩

theorem of_append {part : String} (h : Names (tag ++ part) message) : Names tag message := by
  obtain ⟨rest, rfl | rfl⟩ := h
  · exact ((self tag).append part).append rest
  · rw [← String.append_assoc]
    exact ((quote tag).append part).append rest

end Names

variable {tag : String} {e : Rejection}

theorem names_keyError {α : Type} {message : String} (hm : ∃ rest, message = tag ++ rest)
    (h : (keyError message : Except Rejection α) = .error e) : Names tag e.message := by
  obtain ⟨rest, rfl⟩ := hm
  obtain rfl := Except.error.inj h
  refine Names.append ?_ "\""
  rw [← String.append_assoc]
  exact (Names.quote tag).append rest

theorem names_normalizeNvfp4Pair {value : Value} (h : normalizeNvfp4Pair value tag = .error e) :
    Names tag e.message := by
  have htensors : ∀ {quant scale : Value}, normalizeTensors quant scale tag = .error e →
      Names tag e.message := by
    intro quant scale h
    unfold normalizeTensors at h
    split at h
    · dsimp only at h
      split_ifs at h
      · obtain rfl := Except.error.inj h
        exact (Names.self tag).append _
      · obtain rfl := Except.error.inj h
        exact (Names.self tag).append _
      · obtain rfl := Except.error.inj h
        exact ((((Names.self tag).append _).append _).append _).append _
    · obtain rfl := Except.error.inj h
      exact (Names.self tag).append _
  unfold normalizeNvfp4Pair at h
  split at h
  · exact htensors h
  · exact htensors h
  · obtain rfl := Except.error.inj h
    exact (Names.self tag).append _

theorem names_normalizeActivation {weight : Nvfp4Pair} {item : Value}
    (h : normalizeActivation weight item tag = .error e) : Names tag e.message := by
  rcases Checked.bind_eq_error.mp h with h | ⟨pair, -, h⟩
  · exact names_normalizeNvfp4Pair h
  · split_ifs at h
    · cases h
    · obtain rfl := Except.error.inj h
      exact ((((Names.self tag).append _).append _).append _).append _

theorem names_normalizeEach {α : Type} {f : Value → String → Except Rejection α}
    (hf : ∀ {v : Value} {tag : String}, f v tag = .error e → Names tag e.message)
    {items : List Value} (h : normalizeEach f tag items = .error e) : Names tag e.message := by
  obtain ⟨i, a, -, ha, -⟩ := Checked.exists_of_mapM_zipIdx_eq_error h
  exact (hf ha).of_append.of_append.of_append

theorem names_caseLists {items : List (Value × Value)} {calibName testName : String}
    (h : caseLists items calibName testName tag = .error e) : Names tag e.message := by
  unfold caseLists at h
  split at h
  · obtain rfl := Except.error.inj h
    exact (Names.self tag).append _
  · obtain rfl := Except.error.inj h
    exact (Names.self tag).append _
  · cases h
  · obtain rfl := Except.error.inj h
    exact (((Names.self tag).append _).append _).append _
  · obtain rfl := Except.error.inj h
    exact (((Names.self tag).append _).append _).append _

theorem names_normalizeLinearGroup {raw : Value} {i : ℕ}
    (h : normalizeLinearGroup raw i = .error e) : Names s!"linear group {i}" e.message := by
  unfold normalizeLinearGroup at h
  split at h
  · split at h
    · rcases Checked.bind_eq_error.mp h with h | ⟨weight, -, h⟩
      · exact (names_normalizeNvfp4Pair h).of_append
      rcases Checked.bind_eq_error.mp h with h | ⟨lists, -, h⟩
      · exact names_caseLists h
      rcases Checked.bind_eq_error.mp h with h | ⟨calib, -, h⟩
      · exact (names_normalizeEach names_normalizeActivation h).of_append
      rcases Checked.bind_eq_error.mp h with h | ⟨test, -, h⟩
      · exact (names_normalizeEach names_normalizeActivation h).of_append
      cases h
    · exact names_keyError ⟨_, String.append_assoc⟩ h
  · obtain rfl := Except.error.inj h
    exact (Names.self _).append _

theorem names_checkHidden {heads : Heads} {role : Role} {shape : List ℕ}
    (h : checkHidden heads role shape tag = .error e) : Names tag e.message := by
  by_cases hc : shape.getLastD 0 = heads.hidden role
  · rw [checkHidden, dif_pos hc] at h
    cases h
  · rw [checkHidden, dif_neg hc] at h
    obtain rfl := Except.error.inj h
    exact ((((((Names.self tag).append _).append _).append _).append _).append _).append _

theorem names_normalizeShapes {heads : Heads} {q k v : Nvfp4Pair}
    (h : normalizeShapes heads q k v tag = .error e) : Names tag e.message := by
  unfold normalizeShapes at h
  dsimp only at h
  split at h
  · rcases Checked.bind_eq_error.mp h with h | ⟨hq, -, h⟩
    · exact names_checkHidden h
    rcases Checked.bind_eq_error.mp h with h | ⟨hk, -, h⟩
    · exact names_checkHidden h
    rcases Checked.bind_eq_error.mp h with h | ⟨hv, -, h⟩
    · exact names_checkHidden h
    split_ifs at h
    · cases h
    · obtain rfl := Except.error.inj h
      exact (Names.self tag).append _
  · obtain rfl := Except.error.inj h
    exact (Names.self tag).append _

theorem names_normalizeAttentionSample {heads : Heads} {sample : Value}
    (h : normalizeAttentionSample heads sample tag = .error e) : Names tag e.message := by
  unfold normalizeAttentionSample at h
  split at h
  · split at h
    · rcases Checked.bind_eq_error.mp h with h | ⟨q, -, h⟩
      · exact (names_normalizeNvfp4Pair h).of_append
      rcases Checked.bind_eq_error.mp h with h | ⟨k, -, h⟩
      · exact (names_normalizeNvfp4Pair h).of_append
      rcases Checked.bind_eq_error.mp h with h | ⟨v, -, h⟩
      · exact (names_normalizeNvfp4Pair h).of_append
      exact names_normalizeShapes h
    · exact names_keyError ⟨_, String.append_assoc⟩ h
  · obtain rfl := Except.error.inj h
    exact (Names.self tag).append _

theorem names_normalizeHeads {items : List (Value × Value)}
    (h : normalizeHeads items tag = .error e) : Names tag e.message := by
  simp only [normalizeHeads] at h
  split at h
  · split_ifs at h
    obtain rfl := Except.error.inj h
    exact (Names.self tag).append _
  · obtain rfl := Except.error.inj h
    exact (Names.self tag).append _

theorem names_normalizeAttentionGroup {raw : Value} {i : ℕ}
    (h : normalizeAttentionGroup raw i = .error e) : Names s!"attention group {i}" e.message := by
  unfold normalizeAttentionGroup at h
  split at h
  · split at h
    · rcases Checked.bind_eq_error.mp h with h | ⟨heads, -, h⟩
      · exact names_normalizeHeads h
      rcases Checked.bind_eq_error.mp h with h | ⟨lists, -, h⟩
      · exact names_caseLists h
      rcases Checked.bind_eq_error.mp h with h | ⟨calib, -, h⟩
      · exact (names_normalizeEach names_normalizeAttentionSample h).of_append
      rcases Checked.bind_eq_error.mp h with h | ⟨test, -, h⟩
      · exact (names_normalizeEach names_normalizeAttentionSample h).of_append
      cases h
    · exact names_keyError ⟨_, String.append_assoc⟩ h
  · obtain rfl := Except.error.inj h
    exact (Names.self _).append _

/-- The first group of a rejected list that is none, which the text names. -/
def FirstBad {α : Type} (R : Value → α → Prop) (name : ℕ → String) (raws : List Value)
    (message : String) : Prop :=
  ∃ i raw, raws[i]? = some raw ∧ (¬ ∃ g, R raw g) ∧ Names (name i) message ∧
    ∀ j < i, ∀ raw, raws[j]? = some raw → ∃ g, R raw g

theorem normalizeDataset_error {α : Type} {file : String} {name : ℕ → String}
    {f : Value → ℕ → Except Rejection α} {R : Value → α → Prop}
    (h : ∀ raw i a, f raw i = .ok a ↔ R raw a)
    (hn : ∀ raw i e, f raw i = .error e → Names (name i) e.message)
    {raws : List Value} (hne : raws ≠ []) (he : normalizeDataset file f (.list raws) = .error e) :
    FirstBad R name raws e.message := by
  obtain ⟨raw, raws, rfl⟩ := List.exists_cons_of_ne_nil hne
  obtain ⟨i, bad, hi, hbad, hbefore⟩ := Checked.exists_of_mapM_zipIdx_eq_error he
  simp only [Nat.zero_add] at hbad hbefore
  refine ⟨i, bad, hi, ?_, hn bad i e hbad, ?_⟩
  · rintro ⟨g, hg⟩
    rw [(h bad i g).mpr hg] at hbad
    cases hbad
  · intro j hj raw hraw
    obtain ⟨g, hg⟩ := hbefore j hj raw hraw
    exact ⟨g, (h raw j g).mp hg⟩

/-- The normalisers let through exactly the nonempty lists of groups, and a list they
reject is rejected for its first bad group. -/
theorem normalizeDatasets_exact (raw : Value) :
    (∀ groups, normalizeLinearDataset raw = .ok groups ↔ IsDataset IsLinearGroup raw groups) ∧
    (∀ groups, normalizeAttentionDataset raw = .ok groups ↔
      IsDataset IsAttentionGroup raw groups) ∧
    ∀ raws, raw = .list raws → raws ≠ [] → ∀ e : Rejection,
      (normalizeLinearDataset raw = .error e →
        FirstBad IsLinearGroup (fun i => s!"linear group {i}") raws e.message) ∧
      (normalizeAttentionDataset raw = .error e →
        FirstBad IsAttentionGroup (fun i => s!"attention group {i}") raws e.message) := by
  refine ⟨fun groups => normalizeLinearDataset_eq_ok_iff,
    fun groups => normalizeAttentionDataset_eq_ok_iff, ?_⟩
  rintro raws rfl hne e
  constructor
  · exact normalizeDataset_error normalizeLinearGroup_eq_ok_iff
      (fun raw i e => names_normalizeLinearGroup) hne
  · exact normalizeDataset_error normalizeAttentionGroup_eq_ok_iff
      (fun raw i e => names_normalizeAttentionGroup) hne

def rawZeros : Value :=
  let pair : Value := .list [.object (.tensor none (constant [1, 64] 0)),
    .object (.tensor none (constant [1, 4] 1))]
  .dict none [(.str "weight".toList, pair), (.str "calib_activation_list".toList, .list [pair]),
    (.str "test_activation_list".toList, .list [pair])]

/-- After a group of zeros there is nothing. -/
theorem normalizeDatasets_exact_zeros :
    ∃ e, normalizeLinearDataset (.list [rawZeros, .none]) = .error e ∧
      FirstBad IsLinearGroup (fun i => s!"linear group {i}") [rawZeros, .none] e.message := by
  have he : normalizeLinearDataset (.list [rawZeros, .none]) =
      .error ⟨"TypeError", "linear group 1: expected dict"⟩ := rfl
  exact ⟨_, he, ((normalizeDatasets_exact (.list [rawZeros, .none])).2.2 _ rfl (by simp) _).1 he⟩

end Errors

end K8sLearn.SelfCheck
