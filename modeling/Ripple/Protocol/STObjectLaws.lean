import Ripple.Protocol.STObjectWire

/-!
# Ripple.Protocol.STObjectLaws

What holds of `STObject::add` and `STObject::set` as a whole: the round trip, the independence of the
bytes from the order of the fields, and that nothing that was read has a field twice.
-/

namespace Ripple.Protocol

open Serializer SerialIter List
open SerializedTypeID

variable (getName : SField → String)

/-! ## The order of the fields -/

mutual

/-- The same value, with the fields of its objects in other orders. -/
inductive Reordered : STValue → STValue → Prop
  | refl (t : STValue) : Reordered t t
  | object {m m' : Option SOTemplate} {v v' : Fields} : ReorderedFields v v' →
      Reordered (.object m v) (.object m' v')
  | array {os os' : List (STObject STValue)} : ReorderedObjects os os' → Reordered (.array os) (.array os')

inductive ReorderedFields : Fields → Fields → Prop
  | mk {v w v' : Fields} : v.Perm w → ReorderedEach w v' → ReorderedFields v v'

inductive ReorderedEach : Fields → Fields → Prop
  | nil : ReorderedEach [] []
  | cons {f : SField} {t t' : STValue} {v v' : Fields} : Reordered t t' → ReorderedEach v v' →
      ReorderedEach ((f, t) :: v) ((f, t') :: v')

inductive ReorderedObjects : List (STObject STValue) → List (STObject STValue) → Prop
  | nil : ReorderedObjects [] []
  | cons {f : SField} {m m' : Option SOTemplate} {v v' : Fields} {os os' : List (STObject STValue)} :
      ReorderedFields v v' → ReorderedObjects os os' → ReorderedObjects (⟨f, m, v⟩ :: os) (⟨f, m', v'⟩ :: os')

end

variable {t t' : STValue} {v v' : Fields}

theorem Reordered.getSType_eq (h : Reordered t t') : t'.getSType = t.getSType := by
  cases h with
  | refl | object _ | array _ => rfl

structure SameBytes (t t' : STValue) : Prop where
  type : t'.getSType = t.getSType
  add : t'.add = t.add

theorem SameBytes.endMarker_eq (h : SameBytes t t') : endMarker t' = endMarker t := by
  have htype := h.type
  cases t <;> cases t' <;> first | rfl | cases htype

theorem addFields_congr (h : List.Forall₂ (fun p q => p.1 = q.1 ∧ SameBytes p.2 q.2) v v') :
    addFields v' = addFields v := by
  induction h with
  | nil => rfl
  | @cons p q v v' hpq _ ih =>
    obtain ⟨f, t⟩ := p
    obtain ⟨g, t'⟩ := q
    obtain ⟨rfl, hsame⟩ := hpq
    rw [addFields, addFields, ih, hsame.add, hsame.endMarker_eq]

theorem ReorderedEach.spec {w : Fields} (h : ReorderedEach w v') :
    (included w).map Prod.fst = (included v').map Prod.fst ∧
      ∀ q ∈ v', ∃ p ∈ w, p.1 = q.1 ∧ Reordered p.2 q.2 := by
  induction v' generalizing w with
  | nil =>
    cases h
    exact ⟨rfl, by simp⟩
  | cons q v' ih =>
    cases h with
    | @cons f t t' w v' hhead htail =>
      obtain ⟨hnames, hmem⟩ := ih htail
      constructor
      · have hpresent : t.isPresent = t'.isPresent := by
          rw [STValue.isPresent, STValue.isPresent, hhead.getSType_eq]
        rw [included, included, filter_cons, filter_cons]
        simp only [hpresent]
        split
        · exact congrArg (f :: ·) hnames
        · exact hnames
      · intro q hq
        rcases mem_cons.mp hq with rfl | hq
        · exact ⟨(f, t), mem_cons_self, rfl, hhead⟩
        · obtain ⟨p, hp, hpq⟩ := hmem q hq
          exact ⟨p, mem_cons_of_mem _ hp, hpq⟩

theorem add_reordered {P : SField → STValue → Prop} (h : ReorderedFields v v') (hv : WellFormed P v)
    (hP : ∀ f t t', P f t → Reordered t t' → SameBytes t t') : add v' = add v := by
  cases h with
  | @mk _ w _ hperm heach =>
    obtain ⟨hnames, hmem⟩ := heach.spec
    have hsorted : (getSortedFields v).map Prod.fst = (getSortedFields v').map Prod.fst := by
      refine sorted_names_eq ?_
      rw [← hnames]
      exact (hperm.filter _).map _
    refine addFields_congr (forall₂_of_map_eq hsorted fun p hp q hq hpq => ⟨hpq, ?_⟩)
    obtain ⟨hpv, hppres, -⟩ := mem_getSortedFields.mp hp
    obtain ⟨hqv, hqpres, -⟩ := mem_getSortedFields.mp hq
    obtain ⟨p', hp', hname, hre⟩ := hmem q hqv
    have hp'pres : p'.2.isPresent = true := by rwa [STValue.isPresent, ← hre.getSType_eq]
    have heq : p = p' := inj_on_of_nodup_map hv.distinct.nodup (mem_filter.mpr ⟨hpv, hppres⟩)
      (mem_filter.mpr ⟨hperm.mem_iff.mpr hp', hp'pres⟩) (hpq.trans hname.symm)
    subst heq
    exact hP _ _ _ (hv.fields p hpv hppres) hre

theorem sameBytes_of_reordered (room : Nat) :
    ∀ f t t', Serializable room f t → Reordered t t' → SameBytes t t' := by
  induction room using Nat.strong_induction_on with
  | _ room ih =>
    intro f t t' hser h
    cases room with
    | zero => exact hser.elim
    | succ room =>
      unfold Serializable at hser
      obtain ⟨-, -, hok⟩ := hser
      cases h with
      | refl => exact ⟨rfl, rfl⟩
      | @object m m' v v' hfields =>
        have hadd := add_reordered hfields hok.1 (ih room (Nat.lt_succ_self _))
        exact ⟨rfl, by rw [STValue.add, STValue.add, ← add, ← add, hadd]⟩
      | @array os os' hobjects =>
        refine ⟨rfl, ?_⟩
        rw [STValue.add, STValue.add]
        dsimp only at hok
        induction os generalizing os' with
        | nil =>
          cases hobjects
          rfl
        | cons o os ihos =>
          cases hobjects with
          | @cons n m m' v v' _ os' hfields htail =>
            obtain ⟨-, -, -, hwf⟩ := hok ⟨n, m, v⟩ mem_cons_self
            rw [addObjects, addObjects, ihos htail fun o ho => hok o (mem_cons_of_mem _ ho)]
            cases room with
            | zero => exact hwf.elim
            | succ deeper =>
              have hadd := add_reordered hfields hwf (ih deeper (by omega))
              rw [← add, ← add, hadd]

/-! ## Nothing is read twice -/

inductive AllDistinct : STValue → Prop
  | leaf {t : STValue} : t.getSType ≠ STI_OBJECT → t.getSType ≠ STI_ARRAY → AllDistinct t
  | object {m : Option SOTemplate} {v : Fields} : (v.map Prod.fst).Nodup → (∀ p ∈ v, AllDistinct p.2) →
      AllDistinct (.object m v)
  | array {os : List (STObject STValue)} : (∀ o ∈ os, (o.v.map Prod.fst).Nodup) →
      (∀ o ∈ os, ∀ p ∈ o.v, AllDistinct p.2) → AllDistinct (.array os)

def FieldsDistinct (v : Fields) : Prop := (v.map Prod.fst).Nodup ∧ ∀ p ∈ v, AllDistinct p.2

theorem AllDistinct.of_type {type : SerializedTypeID} (h : t.getSType = type)
    (htype : type ≠ STI_OBJECT ∧ type ≠ STI_ARRAY) : AllDistinct t :=
  .leaf (h ▸ htype.1) (h ▸ htype.2)

theorem except_bind_eq_ok {α β : Type} {x : Except String α} {f : α → Except String β} {b : β}
    (h : x >>= f = .ok b) : ∃ a, x = .ok a ∧ f a = .ok b := by
  cases x with
  | error e => cases h
  | ok a => exact ⟨a, rfl, h⟩

theorem applyElements_eq_ok {es : List SOElement} : ∀ {v placed left : Fields},
    applyElements getName es v = .ok (placed, left) →
      placed.map Prod.fst = es.map SOElement.e_field ∧ ∀ p ∈ placed, p ∈ v ∨ p.2 = .notPresent := by
  induction es with
  | nil =>
    intro v placed left h
    cases h
    exact ⟨rfl, by simp⟩
  | cons e es ih =>
    intro v placed left h
    rw [applyElements] at h
    cases hfind : v.find? fun b => b.1 = e.e_field with
    | some found =>
      rw [hfind] at h
      dsimp only at h
      split at h
      · cases h
      · obtain ⟨r, hrest, hr⟩ := except_bind_eq_ok h
        cases hr
        obtain ⟨hnames, hmem⟩ := ih hrest
        have hname : found.1 = e.e_field := by simpa using find?_some hfind
        refine ⟨by rw [map_cons, map_cons, hnames, hname], fun p hp => ?_⟩
        rcases mem_cons.mp hp with rfl | hp
        · exact .inl (mem_of_find?_eq_some hfind)
        · exact (hmem p hp).imp_left mem_of_mem_eraseP
    | none =>
      rw [hfind] at h
      dsimp only at h
      split at h
      · cases h
      · obtain ⟨r, hrest, hr⟩ := except_bind_eq_ok h
        cases hr
        obtain ⟨hnames, hmem⟩ := ih hrest
        refine ⟨by rw [map_cons, map_cons, hnames], fun p hp => ?_⟩
        rcases mem_cons.mp hp with rfl | hp
        · exact .inr rfl
        · exact hmem p hp

theorem applyTemplate_eq_ok {type : SOTemplate} {placed : Fields}
    (h : applyTemplate getName type v = .ok placed) :
    placed.map Prod.fst = type.all.map SOElement.e_field ∧ ∀ p ∈ placed, p ∈ v ∨ p.2 = .notPresent := by
  obtain ⟨r, happly, h⟩ := except_bind_eq_ok h
  dsimp only at h
  split at h
  · cases h
  · cases h
    exact applyElements_eq_ok getName happly

theorem distinct_template {sField : SField} {r : Option SOTemplate × Fields} (hv : FieldsDistinct v)
    (h : applyTemplateFromSField getName sField v = .ok r) : FieldsDistinct r.2 := by
  rw [applyTemplateFromSField] at h
  cases htype : findSOTemplateBySField sField with
  | none =>
    rw [htype] at h
    cases h
    exact hv
  | some type =>
    rw [htype] at h
    cases happly : applyTemplate getName type v with
    | error err =>
      simp only [happly] at h
      cases h
    | ok placed =>
      simp only [happly] at h
      cases h
      obtain ⟨hnames, hmem⟩ := applyTemplate_eq_ok getName happly
      refine ⟨by rw [hnames]; exact (template_required htype).2, fun p hp => ?_⟩
      rcases hmem p hp with hp | hnot
      · exact hv.2 p hp
      · exact .of_type (congrArg STValue.getSType hnot) (by decide)

theorem getField_eq_some {type value : Nat} {fn : SField} (h : SField.getField type value = some fn) :
    fn.fieldType ≠ STI_NOTPRESENT ∧ fn.isBinary = true := by
  rw [SField.getField] at h
  split at h
  · cases h
  · rename_i hvalue
    obtain ⟨t, ht, rfl⟩ := Option.map_eq_some_iff.mp h
    refine ⟨fun hnot => ?_, decide_eq_true (Nat.lt_succ_of_le (not_lt.mp hvalue))⟩
    rw [show t = STI_NOTPRESENT from hnot] at ht
    unfold ofCode at ht
    split at ht <;> cases ht

theorem nodup_of_adjacentFind (hbinary : ∀ p ∈ v, p.1.isBinary = true)
    (hsorted : (v.map Prod.fst).Pairwise fun f g => f.fieldCode ≤ g.fieldCode)
    (h : adjacentFind v = false) : (v.map Prod.fst).Nodup := by
  induction v with
  | nil => exact nodup_nil
  | cons p v ih =>
    cases v with
    | nil => exact nodup_singleton _
    | cons q v =>
      rw [adjacentFind, Bool.or_eq_false_iff, decide_eq_false_iff_not] at h
      obtain ⟨hle, hsorted⟩ := pairwise_cons.mp hsorted
      have htail := ih (fun r hr => hbinary r (mem_cons_of_mem _ hr)) hsorted h.2
      refine nodup_cons.mpr ⟨fun hmem => ?_, htail⟩
      -- the code of `p` is at most that of `q`, which is at most that of the field that repeats `p`
      have hpq : p.1.fieldCode ≤ q.1.fieldCode := hle _ mem_cons_self
      have hqp : q.1.fieldCode ≤ p.1.fieldCode := by
        rcases mem_cons.mp hmem with heq | hmem
        · exact absurd heq h.1
        · exact (pairwise_cons.mp hsorted).1 _ hmem
      exact h.1 (SField.fieldCode_inj (hbinary p mem_cons_self)
        (hbinary q (mem_cons_of_mem _ mem_cons_self)) (le_antisymm hpq hqp))

/-- What a reader of fields answers: a value of the type of the field, with no field twice. -/
def ReadsDistinct (read : SField → Get STValue) : Prop :=
  ∀ f sit t rest, read f sit = .ok (t, rest) → t.getSType = f.fieldType ∧ AllDistinct t

section Read

variable {getName : SField → String} {read : SField → Get STValue}

variable {t : STValue} {rest sit : Blob}

theorem distinct_withTemplate {fn : SField} {t' : STValue} (ht : AllDistinct t)
    (h : withTemplate getName fn t = .ok t') : t'.getSType = t.getSType ∧ AllDistinct t' := by
  cases t with
  | object m v =>
    cases ht with
    | leaf hobject => exact absurd rfl hobject
    | object hnodup hv =>
      rw [withTemplate] at h
      cases hr : applyTemplateFromSField getName fn v with
      | error err =>
        rw [hr] at h
        cases h
      | ok r =>
        rw [hr] at h
        cases h
        obtain ⟨hnodup, hv⟩ := distinct_template getName ⟨hnodup, hv⟩ hr
        exact ⟨rfl, .object hnodup hv⟩
  | _ =>
    cases h
    exact ⟨rfl, ht⟩

theorem distinct_set (hread : ReadsDistinct read) {r : Fields × Bool}
    (h : set getName read sit = .ok (r, rest)) : FieldsDistinct r.1 := by
  obtain ⟨r', rest', hloop, h⟩ := Parser.bind_eq_ok h
  have hfields : ∀ p ∈ r'.1, (p.2.isPresent = true ∧ p.1.isBinary = true) ∧ AllDistinct p.2 := by
    refine Parser.loop_invariant
      (P := fun v _ => ∀ p ∈ v, (p.2.isPresent = true ∧ p.1.isBinary = true) ∧ AllDistinct p.2)
      (Q := fun r _ => ∀ p ∈ r.1, (p.2.isPresent = true ∧ p.1.isBinary = true) ∧ AllDistinct p.2)
      ?_ ?_ (by simp) hloop
    · intro v input v' rest hv hstep
      rcases setStep_eq_ok getName hstep with ⟨_, hr, -⟩ | ⟨id, sit, fn, t, t', -, hfield, ht, ht', hr⟩
      · cases hr
      cases hr
      obtain ⟨htype, hdist⟩ := hread _ _ _ _ ht
      obtain ⟨htype', hdist'⟩ := distinct_withTemplate hdist ht'
      obtain ⟨hpresent, hbinary⟩ := getField_eq_some hfield
      intro p hp
      rcases mem_append.mp hp with hp | hp
      · exact hv p hp
      · cases mem_singleton.mp hp
        refine ⟨⟨?_, hbinary⟩, hdist'⟩
        rw [STValue.isPresent, htype', htype]
        exact decide_eq_true hpresent
    · intro v input r rest hv hstep
      rcases setStep_eq_ok getName hstep with ⟨_, hr, -⟩ | ⟨_, _, _, _, _, -, -, -, -, hr⟩
      · cases hr
        exact hv
      · cases hr
  split at h
  · cases h
  · rename_i hadj
    cases h
    have hincluded : included r.1 = r.1 := filter_eq_self.mpr fun p hp => by
      rw [(hfields p hp).1.1, (hfields p hp).1.2]
      rfl
    have hperm : (getSortedFields r.1).Perm r.1 := by
      conv_rhs => rw [← hincluded]
      exact getSortedFields_perm r.1
    refine ⟨(hperm.map _).nodup_iff.mp ?_, fun p hp => (hfields p hp).2⟩
    exact nodup_of_adjacentFind (fun p hp => (hfields p (hperm.mem_iff.mp hp)).1.2) (names_sorted r.1)
      (Bool.not_eq_true _ ▸ hadj)

theorem distinct_array {readObject : Get (Fields × Bool)}
    (hread : ∀ {sit r rest}, readObject sit = .ok (r, rest) → FieldsDistinct r.1)
    {v : List (STObject STValue)}
    (h : Parser.loop (arrayStep getName readObject) [] sit = .ok (v, rest)) :
    AllDistinct (.array v) := by
  have hobjects : ∀ o ∈ v, FieldsDistinct o.v := by
    refine Parser.loop_invariant (P := fun v _ => ∀ o ∈ v, FieldsDistinct o.v)
      (Q := fun v _ => ∀ o ∈ v, FieldsDistinct o.v) ?_ ?_ (by simp) h
    · intro v input v' rest hv hstep
      rcases arrayStep_eq_ok getName hstep with ⟨hx, -⟩ | ⟨fn, sit, r, r', -, -, hr, hr', hx⟩
      · cases hx
      cases hx
      intro o ho
      rcases mem_append.mp ho with ho | ho
      · exact hv o ho
      · cases mem_singleton.mp ho
        exact distinct_template getName (hread hr) hr'
    · intro v input r rest hv hstep
      rcases arrayStep_eq_ok getName hstep with ⟨hx, -⟩ | ⟨_, _, _, _, -, -, -, -, hx⟩
      · cases hx
        exact hv
      · cases hx
  exact .array (fun o ho => (hobjects o ho).1) fun o ho => (hobjects o ho).2

theorem distinct_makeAccount {data : Blob} (h : makeAccount data sit = .ok (t, rest)) :
    t.getSType = STI_ACCOUNT := by
  unfold makeAccount at h
  split at h
  · cases h
    rfl
  · split at h
    · cases h
    · cases h
      rfl

theorem readsDistinct_getVar (getName : SField → String) (room : Nat) : ReadsDistinct (getVar getName room) := by
  induction room using Nat.strong_induction_on with
  | _ room ih =>
    intro f sit t rest h
    cases room with
    | zero => cases h
    | succ room =>
      unfold getVar at h
      cases htype : f.fieldType with
      | STI_NOTPRESENT =>
        simp only [htype] at h
        cases h
        exact ⟨rfl, .of_type rfl (by decide)⟩
      | STI_ACCOUNT =>
        simp only [htype] at h
        obtain ⟨data, sit', -, h⟩ := Parser.bind_eq_ok h
        have hacc := distinct_makeAccount h
        exact ⟨hacc, .of_type hacc (by decide)⟩
      | STI_OBJECT =>
        simp only [htype] at h
        obtain ⟨r, sit', hset, h⟩ := Parser.bind_eq_ok h
        cases h
        obtain ⟨hnodup, hdist⟩ := distinct_set (ih room (Nat.lt_succ_self _)) hset
        exact ⟨rfl, .object hnodup hdist⟩
      | STI_ARRAY =>
        simp only [htype] at h
        obtain ⟨v, sit', hloop, h⟩ := Parser.bind_eq_ok h
        cases h
        refine ⟨rfl, distinct_array ?_ hloop⟩
        intro sit r rest hr
        cases room with
        | zero => cases hr
        | succ deeper => exact distinct_set (ih deeper (by omega)) hr
      | _ =>
        simp only [htype] at h
        obtain ⟨a, sit', -, h⟩ := Parser.bind_eq_ok h
        cases h
        exact ⟨rfl, .leaf (by simp [STValue.getSType]) (by simp [STValue.getSType])⟩

end Read

/-! ## The object as a whole -/

/-- `STObject::set` reads what `STObject::add` has written; the order of the fields does not matter;
and no object that was read has a field twice. -/
theorem set_add_object :
    (∀ v, WellFormed (Serializable 10) v → ∃ bytes d, add v = .ok bytes ∧
      setObject getName bytes = .ok ((d, false), []) ∧ sameObject d v = true ∧ sameObject v d = true) ∧
    (∀ v v', WellFormed (Serializable 10) v → ReorderedFields v v' → add v' = add v) ∧
    ∀ sit v flag rest, setObject getName sit = .ok ((v, flag), rest) →
      (v.map Prod.fst).Nodup ∧ ∀ p ∈ v, AllDistinct p.2 := by
  refine ⟨fun v hv => ?_, fun v v' hv h => ?_, fun sit v flag rest h => ?_⟩
  · have hcarried : WellFormed (Carried getName (getVar getName 10)) v :=
      hv.imp fun f t h => carried getName 10 f t h
    obtain ⟨bytes, d, hbytes, hmirrors, hset, -⟩ := reads_set (shrinks_getVar getName 10) hcarried
    exact ⟨bytes, d, hbytes, hset, hmirrors.sameObject hv.distinct⟩
  · exact add_reordered h hv (sameBytes_of_reordered 10)
  · exact distinct_set (readsDistinct_getVar getName 10) h

def memoFields : Fields :=
  [(⟨STI_ARRAY, 9⟩, .array [⟨⟨STI_OBJECT, 10⟩, none, [(⟨STI_VL, 13⟩, .blob [1, 2])]⟩]),
    (⟨STI_UINT32, 4⟩, .uint32 5)]

theorem set_add_object_memo : ∃ bytes d, add memoFields = .ok bytes ∧
    setObject (fun _ => "") bytes = .ok ((d, false), []) ∧ sameObject d memoFields = true ∧
    sameObject memoFields d = true := by
  refine (set_add_object fun _ => "").1 memoFields ⟨fun p hp _ => ?_, ⟨by decide, fun p hp hnot => ?_⟩⟩
  · rcases mem_cons.mp hp with rfl | hp
    · refine ⟨⟨by decide, by decide, nofun, fun _ => by decide⟩, rfl, fun o ho => ?_⟩
      cases mem_singleton.mp ho
      refine ⟨⟨by decide, by decide, nofun, fun _ => by decide⟩, rfl, nofun, fun p hp _ => ?_, ?_⟩
      · cases mem_singleton.mp hp
        exact ⟨⟨by decide, by decide, nofun, nofun⟩, rfl, by decide⟩
      · exact ⟨by decide, fun p hp hnot => by cases mem_singleton.mp hp; cases hnot⟩
    · cases mem_singleton.mp hp
      exact ⟨⟨by decide, by decide, nofun, nofun⟩, rfl, trivial⟩
  · rcases mem_cons.mp hp with rfl | hp
    · cases hnot
    · cases mem_singleton.mp hp
      cases hnot

/-- A path of one element that has no part. Its type is written as the byte that ends the paths. -/
def emptyElement : Fields := [(⟨STI_PATHSET, 1⟩, .pathSet [[⟨0, 0, 0, 0⟩]])]

/-- A field that is listed as not present before its value. `operator==` finds the mark first. -/
def shadowedField : Fields := [(⟨STI_UINT32, 4⟩, .notPresent), (⟨STI_UINT32, 4⟩, .uint32 5)]

theorem set_add_object_fails :
    (STPathElement.Matching ⟨0, 0, 0, 0⟩ ∧ ∃ bytes, add emptyElement = .ok bytes ∧
      setObject (fun _ => "") bytes = .error "empty path") ∧
    ∃ bytes d, add shadowedField = .ok bytes ∧ setObject (fun _ => "") bytes = .ok ((d, false), []) ∧
      sameObject d shadowedField = false := by
  constructor
  · exact ⟨by decide, [1, 18, 0, 0], by decide +kernel, rfl⟩
  · refine ⟨[36, 0, 0, 0, 5], [(⟨STI_UINT32, 4⟩, .uint32 5)], by decide +kernel, rfl, ?_⟩
    have hfind : findField shadowedField ⟨STI_UINT32, 4⟩ = some .notPresent := rfl
    have hpresent : ((STValue.uint32 5).isPresent && SField.isBinary ⟨STI_UINT32, 4⟩) = true := rfl
    rw [sameObject, matchFields, if_pos hpresent]
    split
    · rfl
    · rename_i t2 ht2
      cases hfind.symm.trans ht2
      rw [show isEquivalent .notPresent (.uint32 5) = false by simp [isEquivalent]]
      rfl

end Ripple.Protocol
