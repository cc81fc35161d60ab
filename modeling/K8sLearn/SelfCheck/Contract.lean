import K8sLearn.SelfCheck.State

/-! # The contract of calibration states

The walk of `validate_frozen_state` stays silent on exactly the values of the contract:
bounded depth, bounded size, plain types with string keys, finite numbers, ordinary tensors.
The node counter is shared, so what one sibling leaves of the budget is what the next one
has. On the values of the contract the copy is the value itself.
-/

namespace K8sLearn.SelfCheck

structure AllowedTensor (t : TorchTensor) : Prop where
  onCpu : t.onCpu = true
  strided : t.strided = true
  dtype_mem : t.dtype ∈ allowedTensorDtypes
  not_requiresGrad : t.requiresGrad = false
  finite : t.dtype.isFloatingPoint = true →
    ∃ data, t.content = .dense data ∧ ∀ x ∈ data, x.isFinite = true

def AllowedKey (key : Value) : Prop :=
  ∃ s, key = .str s ∧ utf8Length s ≤ frozenStateMaxStringBytes

inductive Allowed : Value → Prop
  | none : Allowed .none
  | bool (b : Bool) : Allowed (.bool b)
  | int (n : ℤ) : Allowed (.int n)
  | float {x : PyFloat} (h : x.isFinite = true) : Allowed (.float x)
  | str {s : Str} (h : utf8Length s ≤ frozenStateMaxStringBytes) : Allowed (.str s)
  | list {vs : List Value} (h : ∀ v ∈ vs, Allowed v) : Allowed (.list vs)
  | tuple {vs : List Value} (h : ∀ v ∈ vs, Allowed v) : Allowed (.tuple vs)
  | dict {items : List (Value × Value)} (hkeys : ∀ item ∈ items, AllowedKey item.1)
      (h : ∀ item ∈ items, Allowed item.2) : Allowed (.dict Option.none items)
  | tensor {t : TorchTensor} (h : AllowedTensor t) : Allowed (.object (.tensor Option.none t))

structure FrozenState (v : Value) : Prop where
  depth_le : v.nestingDepth ≤ frozenStateMaxDepth
  nodes_le : v.nodes ≤ frozenStateMaxNodes
  allowed : Allowed v

namespace Walk

variable {w : Walk} {c : Bool} {error : String}

@[simp] theorem report_errors : (w.report error).errors = [] ↔ False := by simp [report]
@[simp] theorem report_nodeCount : (w.report error).nodeCount = w.nodeCount := rfl

@[simp] theorem reportIf_errors : (w.reportIf c error).errors = [] ↔ w.errors = [] ∧ c = false := by
  cases c <;> simp [reportIf]

@[simp] theorem reportIf_nodeCount : (w.reportIf c error).nodeCount = w.nodeCount := by
  cases c <;> rfl

end Walk

theorem not_isComplex_of_mem {d : Dtype} (h : d ∈ allowedTensorDtypes) : d.isComplex = false := by
  cases d <;> first | rfl | simp [allowedTensorDtypes] at h

/-- A part of the walk that stays silent when it is given `n` nodes of budget and `P` holds, and
then takes these nodes. -/
structure Step (f : Walk → Walk) (n : ℕ) (P : Prop) : Prop where
  errors_imp : ∀ w, (f w).errors = [] → w.errors = []
  errors : ∀ w, w.nodeCount ≤ frozenStateMaxNodes →
    ((f w).errors = [] ↔ w.errors = [] ∧ w.nodeCount + n ≤ frozenStateMaxNodes ∧ P)
  nodeCount : ∀ w, w.nodeCount ≤ frozenStateMaxNodes → (f w).errors = [] →
    (f w).nodeCount = w.nodeCount + n

namespace Step

variable {f g : Walk → Walk} {n m : ℕ} {P Q : Prop}

theorem congr (h : Step f n P) (hPQ : P ↔ Q) : Step f n Q := propext hPQ ▸ h

protected theorem id : Step id 0 True := ⟨fun _ => id, fun w hw => by simp [hw], fun w _ _ => rfl⟩

theorem comp (hf : Step f n P) (hg : Step g m Q) : Step (fun w => g (f w)) (n + m) (P ∧ Q) where
  errors_imp w h := hf.errors_imp w (hg.errors_imp _ h)
  errors w hw := by
    constructor
    · intro h
      have h₁ := hg.errors_imp _ h
      obtain ⟨he, hn, hP⟩ := (hf.errors w hw).mp h₁
      have hc := hf.nodeCount w hw h₁
      obtain ⟨-, hm, hQ⟩ := (hg.errors _ (by omega)).mp h
      exact ⟨he, by omega, hP, hQ⟩
    · rintro ⟨he, hn, hP, hQ⟩
      have h₁ := (hf.errors w hw).mpr ⟨he, by omega, hP⟩
      have hc := hf.nodeCount w hw h₁
      exact (hg.errors _ (by omega)).mpr ⟨h₁, by omega, hQ⟩
  nodeCount w hw h := by
    have h₁ := hg.errors_imp _ h
    have hn := (hf.errors w hw).mp h₁
    have hc := hf.nodeCount w hw h₁
    rw [hg.nodeCount _ (by omega) h, hc, Nat.add_assoc]

theorem reportIf (c : Bool) (error : String) : Step (·.reportIf c error) 0 (c = false) where
  errors_imp w h := (Walk.reportIf_errors.mp h).1
  errors w hw := by simp [hw]
  nodeCount w _ _ := Walk.reportIf_nodeCount

theorem never (h : ∀ w, (f w).errors ≠ []) (hP : ¬ P) (n : ℕ) : Step f n P :=
  ⟨fun w h' => absurd h' (h w), fun w _ => by simp [h, hP], fun w _ h' => absurd h' (h w)⟩

theorem entry (depth : ℕ) (e₁ e₂ : String) (hf : depth ≤ frozenStateMaxDepth → Step f n P) :
    Step (fun w =>
      let w : Walk := { w with nodeCount := w.nodeCount + 1 }
      if frozenStateMaxNodes < w.nodeCount then w.report e₁
      else if frozenStateMaxDepth < depth then w.report e₂ else f w)
      (1 + n) (depth ≤ frozenStateMaxDepth ∧ P) := by
  by_cases hd : depth ≤ frozenStateMaxDepth
  · have hf := hf hd
    have hlt : ¬ frozenStateMaxDepth < depth := not_lt.mpr hd
    refine ⟨fun w h => ?_, fun w hw => ?_, fun w hw h => ?_⟩ <;> dsimp only at *
    · split_ifs at h with hn
      · simp at h
      · exact hf.errors_imp ⟨w.nodeCount + 1, w.errors⟩ h
    · split_ifs with hn
      · simp
        omega
      · rw [hf.errors ⟨w.nodeCount + 1, w.errors⟩ (not_lt.mp hn)]
        simp [hd, Nat.add_assoc]
    · split_ifs at h ⊢ with hn
      · simp at h
      · rw [hf.nodeCount ⟨w.nodeCount + 1, w.errors⟩ (not_lt.mp hn) h, Nat.add_assoc]
  · have hlt : frozenStateMaxDepth < depth := not_le.mp hd
    refine ⟨fun w h => ?_, fun w hw => ?_, fun w hw h => ?_⟩ <;> dsimp only at *
    · split_ifs at h <;> simp at h
    · split_ifs <;> simp [hd]
    · split_ifs at h <;> simp at h

end Step

section Tensor

variable (t : TorchTensor) (path : String) (w : Walk)

theorem visitTensor_errors :
    (visitTensor t path w).errors = [] ↔ w.errors = [] ∧ AllowedTensor t := by
  have hflags : (visitTensor t path w).errors = [] ↔ w.errors = [] ∧ t.onCpu = true ∧
      t.strided = true ∧ t.dtype ∈ allowedTensorDtypes ∧ t.requiresGrad = false ∧
      t.dtype.isComplex = false ∧ (t.dtype.isFloatingPoint = true →
        ∃ data, t.content = .dense data ∧ ∀ x ∈ data, x.isFinite = true) := by
    unfold visitTensor
    by_cases hf : t.dtype.isFloatingPoint = true
    · cases hc : t.content <;> simp [hf, and_assoc]
    · simp [hf, and_assoc]
  rw [hflags]
  constructor
  · rintro ⟨hw, h₁, h₂, h₃, h₄, -, h₅⟩
    exact ⟨hw, h₁, h₂, h₃, h₄, h₅⟩
  · rintro ⟨hw, h₁, h₂, h₃, h₄, h₅⟩
    exact ⟨hw, h₁, h₂, h₃, h₄, not_isComplex_of_mem h₃, h₅⟩

theorem visitTensor_nodeCount : (visitTensor t path w).nodeCount = w.nodeCount := by
  unfold visitTensor
  by_cases hf : t.dtype.isFloatingPoint = true
  · cases hc : t.content <;> simp [hf]
  · simp [hf]

theorem step_visitTensor : Step (visitTensor t path) 0 (AllowedTensor t) where
  errors_imp w h := ((visitTensor_errors t path w).mp h).1
  errors w hw := by simp [visitTensor_errors, hw]
  nodeCount w _ _ := visitTensor_nodeCount t path w

end Tensor

/-- The visit of a value, at whatever depth: it needs the nodes of the value, the depth, and an
allowed value. -/
def Visits (tag : String) (v : Value) : Prop := ∀ depth path,
  Step (visit tag depth v path) v.nodes (depth + v.nestingDepth ≤ frozenStateMaxDepth ∧ Allowed v)

section Containers

variable {tag : String} {depth : ℕ}

theorem step_visitElements {vs : List Value} (hv : ∀ v ∈ vs, Visits tag v)
    (hd : depth ≤ frozenStateMaxDepth) (path : String) (i : ℕ) :
    Step (visitElements tag (depth + 1) vs path i) (PyValue.nodesOfElements vs)
      (depth + PyValue.depthOfElements vs ≤ frozenStateMaxDepth ∧ ∀ v ∈ vs, Allowed v) := by
  induction vs generalizing i with
  | nil =>
    have hid : visitElements tag (depth + 1) [] path i = id := by
      funext w
      rw [visitElements, id]
    rw [hid]
    exact Step.id.congr (by simpa [PyValue.depthOfElements] using hd)
  | cons v vs ih =>
    have hcons : visitElements tag (depth + 1) (v :: vs) path i = fun w =>
        visitElements tag (depth + 1) vs path (i + 1)
          (visit tag (depth + 1) v s!"{path}[{i}]" w) := by
      funext w
      rw [visitElements]
    rw [hcons]
    refine ((hv v List.mem_cons_self _ _).comp
      (ih (fun v' hv' => hv v' (List.mem_cons_of_mem _ hv')) (i + 1))).congr ?_
    rw [PyValue.depthOfElements, List.forall_mem_cons]
    constructor
    · rintro ⟨⟨h₁, h₂⟩, h₃, h₄⟩
      exact ⟨by omega, h₂, h₄⟩
    · rintro ⟨h₁, h₂, h₃⟩
      exact ⟨⟨by omega, h₂⟩, by omega, h₃⟩

theorem visitItems_of_ne_str {key : Value} (hkey : ∀ s, key ≠ .str s) (v : Value)
    (items : List (Value × Value)) (path : String) (w : Walk) :
    visitItems tag depth ((key, v) :: items) path w = visitItems tag depth items path
      (w.report s!"{path}: dict keys must be str, got {typeName key}") := by
  cases key with
  | str s => exact absurd rfl (hkey s)
  | _ => rw [visitItems]; rintro s ⟨⟩

theorem step_visitItem {key v : Value} {items : List (Value × Value)} {m : ℕ} {Q : Prop}
    (hv : Visits tag v) (path : String) (hrest : Step (visitItems tag depth items path) m Q) :
    Step (visitItems tag depth ((key, v) :: items) path) (v.nodes + m)
      ((AllowedKey key ∧ depth + v.nestingDepth ≤ frozenStateMaxDepth ∧ Allowed v) ∧ Q) := by
  by_cases hkey : ∃ s, key = .str s
  · obtain ⟨s, rfl⟩ := hkey
    have hcons : visitItems tag depth ((.str s, v) :: items) path = fun w =>
        visitItems tag depth items path (visit tag depth v s!"{path}.{String.ofList s}"
          (w.reportIf (frozenStateMaxStringBytes < utf8Length s)
            s!"{path}: dict key exceeds {frozenStateMaxStringBytes} UTF-8 bytes")) := by
      funext w
      rw [visitItems]
    rw [hcons, ← Nat.zero_add v.nodes]
    refine (((Step.reportIf _ _).comp (hv depth _)).comp hrest).congr ?_
    simp [AllowedKey]
  · apply Step.never
    · intro w h
      rw [visitItems_of_ne_str (fun s hs => hkey ⟨s, hs⟩)] at h
      simpa using hrest.errors_imp _ h
    · rintro ⟨⟨⟨s, hs, -⟩, -⟩, -⟩
      exact hkey ⟨s, hs⟩

theorem step_visitItems {items : List (Value × Value)} (hv : ∀ item ∈ items, Visits tag item.2)
    (hd : depth ≤ frozenStateMaxDepth) (path : String) :
    Step (visitItems tag (depth + 1) items path) (PyValue.nodesOfItems items)
      (depth + PyValue.depthOfItems items ≤ frozenStateMaxDepth ∧
        (∀ item ∈ items, AllowedKey item.1) ∧ ∀ item ∈ items, Allowed item.2) := by
  induction items with
  | nil =>
    have hid : visitItems tag (depth + 1) [] path = id := by
      funext w
      rw [visitItems, id]
    rw [hid]
    exact Step.id.congr (by simpa [PyValue.depthOfItems] using hd)
  | cons item items ih =>
    obtain ⟨key, v⟩ := item
    refine (step_visitItem (hv _ List.mem_cons_self) path
      (ih fun item hi => hv item (List.mem_cons_of_mem _ hi))).congr ?_
    simp only [PyValue.depthOfItems, List.forall_mem_cons]
    constructor
    · rintro ⟨⟨hk, h₁, h₂⟩, h₃, hks, h₄⟩
      exact ⟨by omega, ⟨hk, hks⟩, h₂, h₄⟩
    · rintro ⟨h₁, ⟨hk, hks⟩, h₂, h₃⟩
      exact ⟨⟨hk, by omega, h₂⟩, by omega, hks, h₃⟩

end Containers

section Visit

variable {tag : String} {v : Value}

theorem visits_of_body {n : ℕ} (body : ℕ → String → Walk → Walk) (hn : v.nodes = 1 + n)
    (hbody : ∀ depth path w, visit tag depth v path w =
      let w : Walk := { w with nodeCount := w.nodeCount + 1 }
      if frozenStateMaxNodes < w.nodeCount then
        w.report s!"{tag}: state contains more than {frozenStateMaxNodes} nodes"
      else if frozenStateMaxDepth < depth then
        w.report s!"{path}: nesting depth exceeds {frozenStateMaxDepth}"
      else body depth path w)
    (h : ∀ depth path, depth ≤ frozenStateMaxDepth → Step (body depth path) n
      (depth + v.nestingDepth ≤ frozenStateMaxDepth ∧ Allowed v)) : Visits tag v := by
  intro depth path
  rw [funext (hbody depth path), hn]
  refine (Step.entry depth _ _ (h depth path)).congr ⟨And.right, fun h' => ⟨by omega, h'⟩⟩

theorem visits_leaf {P : Prop} (body : String → Walk → Walk) (hn : v.nodes = 1)
    (hd : v.nestingDepth = 0)
    (hbody : ∀ depth path w, visit tag depth v path w =
      let w : Walk := { w with nodeCount := w.nodeCount + 1 }
      if frozenStateMaxNodes < w.nodeCount then
        w.report s!"{tag}: state contains more than {frozenStateMaxNodes} nodes"
      else if frozenStateMaxDepth < depth then
        w.report s!"{path}: nesting depth exceeds {frozenStateMaxDepth}"
      else body path w)
    (h : ∀ path, Step (body path) 0 P) (hP : P ↔ Allowed v) : Visits tag v := by
  refine visits_of_body (fun _ => body) hn hbody fun depth path hle => (h path).congr ?_
  rw [hd, Nat.add_zero, hP]
  exact ⟨fun hv => ⟨hle, hv⟩, And.right⟩

theorem visits_unsupported (hn : v.nodes = 1 + (v.nodes - 1))
    (hbody : ∀ depth path w, visit tag depth v path w =
      let w : Walk := { w with nodeCount := w.nodeCount + 1 }
      if frozenStateMaxNodes < w.nodeCount then
        w.report s!"{tag}: state contains more than {frozenStateMaxNodes} nodes"
      else if frozenStateMaxDepth < depth then
        w.report s!"{path}: nesting depth exceeds {frozenStateMaxDepth}"
      else w.report s!"{path}: unsupported state type {typeName v}")
    (hv : ¬ Allowed v) : Visits tag v :=
  visits_of_body (fun _ path w => w.report s!"{path}: unsupported state type {typeName v}") hn hbody
    fun _ _ _ => Step.never (fun _ => by simp) (fun h => hv h.2) _

theorem visits (tag : String) (v : Value) : Visits tag v := by
  induction v using PyValue.induction with
  | none =>
    exact visits_leaf (fun _ w => w) rfl rfl (fun _ _ _ => by rw [visit]) (fun _ => Step.id)
      (iff_of_true trivial .none)
  | bool b =>
    exact visits_leaf (fun _ w => w) rfl rfl (fun _ _ _ => by rw [visit]) (fun _ => Step.id)
      (iff_of_true trivial (.bool b))
  | int n =>
    exact visits_leaf (fun _ w => w) rfl rfl (fun _ _ _ => by rw [visit]) (fun _ => Step.id)
      (iff_of_true trivial (.int n))
  | float x =>
    refine visits_leaf (fun path w => w.reportIf (!x.isFinite) s!"{path}: float must be finite")
      rfl rfl (fun _ _ _ => by rw [visit]) (fun _ => Step.reportIf _ _) ?_
    rw [Bool.not_eq_false']
    exact ⟨.float, fun | .float h => h⟩
  | str s =>
    refine visits_leaf (fun path w => w.reportIf (frozenStateMaxStringBytes < utf8Length s)
      s!"{path}: string exceeds {frozenStateMaxStringBytes} UTF-8 bytes") rfl rfl
      (fun _ _ _ => by rw [visit]) (fun _ => Step.reportIf _ _) ?_
    rw [decide_eq_false_iff_not, not_lt]
    exact ⟨.str, fun | .str h => h⟩
  | list vs ih =>
    refine visits_of_body (fun depth path w => visitElements tag (depth + 1) vs path 0 w)
      (by rw [PyValue.nodes]) (fun _ _ _ => by rw [visit]) fun depth path hd => ?_
    refine (step_visitElements ih hd path 0).congr ?_
    rw [PyValue.nestingDepth]
    exact and_congr_right fun _ => ⟨.list, fun | .list h => h⟩
  | tuple vs ih =>
    refine visits_of_body (fun depth path w => visitElements tag (depth + 1) vs path 0 w)
      (by rw [PyValue.nodes]) (fun _ _ _ => by rw [visit]) fun depth path hd => ?_
    refine (step_visitElements ih hd path 0).congr ?_
    rw [PyValue.nestingDepth]
    exact and_congr_right fun _ => ⟨.tuple, fun | .tuple h => h⟩
  | dict sub items ih =>
    cases sub with
    | none =>
      refine visits_of_body (fun depth path w => visitItems tag (depth + 1) items path w)
        (by rw [PyValue.nodes]) (fun _ _ _ => by rw [visit]) fun depth path hd => ?_
      refine (step_visitItems ih hd path).congr ?_
      rw [PyValue.nestingDepth]
      exact and_congr_right fun _ => ⟨fun h => .dict h.1 h.2, fun | .dict h h' => ⟨h, h'⟩⟩
    | some cls =>
      refine visits_unsupported ?_ (fun _ _ _ => by rw [visit] <;> simp) nofun
      rw [PyValue.nodes, Nat.add_sub_cancel_left]
  | object x =>
    cases x with
    | tensor sub t =>
      cases sub with
      | none =>
        exact visits_leaf (visitTensor t) rfl rfl (fun _ _ _ => by rw [visit])
          (step_visitTensor t) ⟨.tensor, fun | .tensor h => h⟩
      | some cls => exact visits_unsupported rfl (fun _ _ _ => by rw [visit] <;> simp) nofun
    | other cls => exact visits_unsupported rfl (fun _ _ _ => by rw [visit] <;> simp) nofun

end Visit

theorem validateFrozenState_eq_nil_iff (v : Value) (tag : String) :
    validateFrozenState v tag = [] ↔ FrozenState v := by
  rw [validateFrozenState, (visits tag v 0 tag).errors ⟨0, []⟩ (Nat.zero_le _)]
  simp only [true_and, Nat.zero_add]
  exact ⟨fun ⟨hn, hd, hv⟩ => ⟨hd, hn, hv⟩, fun ⟨hd, hn, hv⟩ => ⟨hn, hd, hv⟩⟩

section Clone

variable (rt : Runtime)

theorem cloneElements_eq {vs : List Value} (h : ∀ v ∈ vs, cloneFrozenState rt v = .ok v) :
    cloneElements rt vs = .ok vs := by
  induction vs with
  | nil => rfl
  | cons v vs ih =>
    rw [cloneElements, h v List.mem_cons_self, ih fun v hv => h v (List.mem_cons_of_mem _ hv)]
    rfl

theorem cloneItems_eq {items : List (Value × Value)}
    (h : ∀ item ∈ items, cloneFrozenState rt item.2 = .ok item.2) :
    cloneItems rt items = .ok items := by
  induction items with
  | nil => rfl
  | cons item items ih =>
    obtain ⟨key, v⟩ := item
    rw [cloneItems, h _ List.mem_cons_self, ih fun item hi => h item (List.mem_cons_of_mem _ hi)]
    rfl

theorem cloneFrozenState_eq {v : Value} (h : Allowed v) : cloneFrozenState rt v = .ok v := by
  induction h with
  | none | bool | int | float | str => rw [cloneFrozenState]
  | list _ ih =>
    rw [cloneFrozenState, cloneElements_eq rt ih]
    rfl
  | tuple _ ih =>
    rw [cloneFrozenState, cloneElements_eq rt ih]
    rfl
  | dict _ _ ih =>
    rw [cloneFrozenState, cloneItems_eq rt ih]
    rfl
  | @tensor t h =>
    have ht : { t with requiresGrad := false } = t := by rw [← h.not_requiresGrad]
    have hcond : (t.onCpu && t.strided) = true := by rw [h.onCpu, h.strided, Bool.and_self]
    rw [cloneFrozenState, if_pos hcond, ht]
    rfl

end Clone

/-- The validator is silent on exactly the values of the contract, and on these the copy does not
raise, equals the value, and passes the validator again. -/
theorem frozenState_contract (rt : Runtime) (v : Value) (tag : String) :
    (validateFrozenState v tag = [] ↔ FrozenState v) ∧
      (validateFrozenState v tag = [] → ∃ w, cloneFrozenState rt v = .ok w ∧ w = v ∧
        ∀ tag', validateFrozenState w tag' = []) := by
  refine ⟨validateFrozenState_eq_nil_iff v tag, fun h => ?_⟩
  have hv := (validateFrozenState_eq_nil_iff v tag).mp h
  exact ⟨v, cloneFrozenState_eq rt hv.allowed, rfl,
    fun tag' => (validateFrozenState_eq_nil_iff v tag').mpr hv⟩

def nestedState : Value :=
  .dict none [(.str "scale".toList, .list [.float (.finite 2), .int 3]), (.str "rho".toList, .none)]

theorem frozenState_contract_nested :
    validateFrozenState nestedState "state" = [] ∧
      ∀ rt, ∃ w, cloneFrozenState rt nestedState = .ok w ∧ w = nestedState ∧
        ∀ tag, validateFrozenState w tag = [] := by
  have hkey : ∀ s ∈ ["scale".toList, "rho".toList], AllowedKey (.str s) := by
    intro s hs
    refine ⟨s, rfl, ?_⟩
    simp only [List.mem_cons, List.not_mem_nil, or_false] at hs
    rcases hs with rfl | rfl <;> decide
  have hlist : Allowed (.list [.float (.finite 2), .int 3]) := by
    refine .list (List.forall_mem_cons.mpr ⟨.float rfl, List.forall_mem_cons.mpr ⟨.int 3, ?_⟩⟩)
    exact List.forall_mem_nil _
  have hv : FrozenState nestedState := by
    refine ⟨by decide, by decide, .dict ?_ ?_⟩
    · exact List.forall_mem_cons.mpr ⟨hkey _ (by simp),
        List.forall_mem_cons.mpr ⟨hkey _ (by simp), List.forall_mem_nil _⟩⟩
    · exact List.forall_mem_cons.mpr ⟨hlist, List.forall_mem_cons.mpr ⟨.none, List.forall_mem_nil _⟩⟩
  have hs := (validateFrozenState_eq_nil_iff nestedState "state").mpr hv
  exact ⟨hs, fun rt => (frozenState_contract rt nestedState "state").2 hs⟩

end K8sLearn.SelfCheck
