import Ripple.SHAMap.Map

/-!
# Ripple.SHAMap.Runs

Runs of calls on a map, next to the same runs on its model, a finite map from keys to leaves.
-/

namespace Ripple.SHAMap

open Trie

variable {L D : Type}

inductive Op (D : Type) where
  | addItem (key : Key) (data : D) (isTransaction hasMeta : Bool)
  | delItem (key : Key)
  | updateGiveItem (key : Key) (data : D) (isTransaction hasMeta : Bool)

/-- The call brings leaves of no other type. -/
def Op.OfType (type : TNType) : Op D → Prop
  | .addItem _ _ isTransaction hasMeta => leafType isTransaction hasMeta = type
  | .delItem _ => True
  | .updateGiveItem _ _ isTransaction hasMeta => leafType isTransaction hasMeta = type

abbrev Contents (D : Type) := Key → Option (Leaf D)

/-- What a call does to the model, and what it returns. -/
def specStep (m : Contents D) : Op D → Contents D × Bool
  | .addItem k x isTransaction hasMeta =>
    if (m k).isSome then (m, false)
    else (Function.update m k (some ⟨leafType isTransaction hasMeta, x⟩), true)
  | .delItem k => if (m k).isSome then (Function.update m k none, true) else (m, false)
  | .updateGiveItem k x isTransaction hasMeta =>
    if (m k).isSome then (Function.update m k (some ⟨leafType isTransaction hasMeta, x⟩), true)
    else (m, false)

def noItems : Contents D := fun _ => none

def step [Version L] (ver : VersionOps L D) (root : Tree L D) : Op D → Tree L D × Bool
  | .addItem k x isTransaction hasMeta => addGiveItem ver root k x isTransaction hasMeta
  | .delItem k => delItem ver root k
  | .updateGiveItem k x isTransaction hasMeta => updateGiveItem root k x isTransaction hasMeta

def runOps {σ : Type} (step : σ → Op D → σ × Bool) (s : σ) : List (Op D) → σ × List Bool
  | [] => (s, [])
  | op :: ops =>
    let r := runOps step (step s op).1 ops
    (r.1, (step s op).2 :: r.2)

variable {ops : List (Op D)} {m : Contents D} {t t' : Tree L D} {v : Leaf D} {k : Key} {L' : Type}
  {root : Tree L D}

/-- A relation that the calls keep, with the same replies, is kept by runs. -/
theorem runOps_simulates {σ τ : Type} {step : σ → Op D → σ × Bool} {step' : τ → Op D → τ × Bool}
    {R : σ → τ → Prop} {ok : Op D → Prop}
    (hstep : ∀ s t op, ok op → R s t → R (step s op).1 (step' t op).1 ∧ (step s op).2 = (step' t op).2)
    (hok : ∀ op ∈ ops, ok op) : ∀ {s : σ} {t : τ}, R s t →
      R (runOps step s ops).1 (runOps step' t ops).1 ∧ (runOps step s ops).2 = (runOps step' t ops).2 := by
  induction ops with
  | nil => exact fun h => ⟨h, rfl⟩
  | cons op ops ih =>
    intro s t h
    obtain ⟨hR, hret⟩ := hstep s t op (hok op List.mem_cons_self) h
    obtain ⟨hR', hret'⟩ := ih (fun o ho => hok o (List.mem_cons_of_mem op ho)) hR
    exact ⟨hR', by rw [runOps, runOps, hret, hret']⟩

def Holds (t : Tree L D) (m : Contents D) : Prop := ∀ k v, (k, v) ∈ t.items ↔ m k = some v

theorem Holds.isSome_iff (h : Holds t m) (k : Key) : (m k).isSome ↔ ∃ v, (k, v) ∈ t.items := by
  rw [Option.isSome_iff_exists]
  exact exists_congr fun v => (h k v).symm

theorem Holds.insert (h : Holds t m) (hk : m k = none) (hperm : t'.items.Perm ((k, v) :: t.items)) :
    Holds t' (Function.update m k (some v)) := by
  intro k' v'
  rw [hperm.mem_iff, List.mem_cons, h k' v', Function.update_apply, Prod.mk.injEq]
  split
  · next heq => simp [heq, hk, eq_comm]
  · next hne => simp [hne]

theorem Holds.erase {rest : List (Key × Leaf D)} (h : Holds t m) (hnodup : (t.items.map Prod.fst).Nodup)
    (hperm : t.items.Perm ((k, v) :: rest)) (k' : Key) (v' : Leaf D) :
    (k', v') ∈ rest ↔ Function.update m k none k' = some v' := by
  have hnodup' := (hperm.map Prod.fst).nodup_iff.mp hnodup
  rw [List.map_cons, List.nodup_cons] at hnodup'
  have hmem := h k' v'
  rw [hperm.mem_iff, List.mem_cons, Prod.mk.injEq] at hmem
  rw [Function.update_apply]
  split
  · next heq =>
    subst heq
    simp only [reduceCtorEq, iff_false]
    exact fun hin => hnodup'.1 (List.mem_map.mpr ⟨_, hin, rfl⟩)
  · next hne => simpa [hne] using hmem

theorem Holds.replace (h : Holds t m) (hnodup : (t.items.map Prod.fst).Nodup) (hk : (m k).isSome)
    (hrep : Replaced k v t t') : Holds t' (Function.update m k (some v)) := by
  obtain ⟨v₀, hv₀⟩ := (h.isSome_iff k).mp hk
  obtain ⟨rest, hperm, hperm'⟩ := hrep.perm v₀ hv₀
  intro k' v'
  rw [hperm'.mem_iff, List.mem_cons, h.erase hnodup hperm, Function.update_apply, Function.update_apply,
    Prod.mk.injEq]
  split
  · next heq => simp [heq, eq_comm]
  · next hne => simp [hne]

theorem Holds.perm {t' : Tree L' D} (h : Holds t m) (h' : Holds t' m) (hnodup : t.items.Nodup)
    (hnodup' : t'.items.Nodup) : t.items.Perm t'.items :=
  (List.perm_ext_iff_of_nodup hnodup hnodup').mpr fun p => (h p.1 p.2).trans (h' p.1 p.2).symm

/-! ## Refinement -/

variable [Version L]

/-- The calls that meet `ok` keep the canonical maps of the version, and change the items as they
should. -/
structure Sound (ver : VersionOps L D) (Canonical : Tree L D → Prop) (ok : Op D → Prop) : Prop where
  walk_iff : ∀ {root}, Canonical root → ∀ k v,
    (walkTowardsKey k root 0 []).node = .leaf k v ↔ (k, v) ∈ root.items
  nodup_keys : ∀ {root}, Canonical root → (root.items.map Prod.fst).Nodup
  add : ∀ {root k x isTransaction hasMeta}, Canonical root → ok (.addItem k x isTransaction hasMeta) →
    (∀ v, (k, v) ∉ root.items) → ∃ root', addGiveItem ver root k x isTransaction hasMeta = (root', true) ∧
      root'.items.Perm ((k, ⟨leafType isTransaction hasMeta, x⟩) :: root.items) ∧ Canonical root'
  del : ∀ {root k v}, Canonical root → (k, v) ∈ root.items → ∃ root', delItem ver root k = (root', true) ∧
    root.items.Perm ((k, v) :: root'.items) ∧ Canonical root'
  update : ∀ {root k x isTransaction hasMeta}, Canonical root →
    ok (.updateGiveItem k x isTransaction hasMeta) → (∃ v, (k, v) ∈ root.items) →
    ∃ root', updateGiveItem root k x isTransaction hasMeta = (root', true) ∧
      Replaced k ⟨leafType isTransaction hasMeta, x⟩ root root' ∧ Canonical root'

structure Refines (Canonical : Tree L D → Prop) (root : Tree L D) (m : Contents D) : Prop where
  canonical : Canonical root
  holds : Holds root m

variable {ver : VersionOps L D} {Canonical : Tree L D → Prop} {ok : Op D → Prop}

theorem Refines.findKey_eq (h : Refines Canonical root m) (hs : Sound ver Canonical ok) (k : Key) :
    findKey root k = m k := by
  refine Option.ext fun v => ?_
  rw [findKey_eq_some, hs.walk_iff h.canonical, h.holds k v]

omit [Version L] in
theorem Refines.absent (h : Refines Canonical root m) (hk : ¬(m k).isSome) (v : Leaf D) :
    (k, v) ∉ root.items :=
  fun hmem => hk ((h.holds.isSome_iff k).mpr ⟨v, hmem⟩)

section

variable (hs : Sound ver Canonical ok)
include hs

theorem Sound.step_refines (root : Tree L D) (m : Contents D) (op : Op D)
    (hop : ok op) (h : Refines Canonical root m) :
    Refines Canonical (step ver root op).1 (specStep m op).1 ∧ (step ver root op).2 = (specStep m op).2 := by
  cases op with
  | addItem k x isTransaction hasMeta =>
    simp only [step, specStep]
    split
    · next hk =>
      obtain ⟨v, hv⟩ := (h.holds.isSome_iff k).mp hk
      rw [addGiveItem, if_pos (isLeafOf_eq_true.mpr ⟨v, (hs.walk_iff h.canonical k v).mpr hv⟩)]
      exact ⟨h, rfl⟩
    · next hk =>
      obtain ⟨root', heq, hperm, hcan⟩ := hs.add h.canonical hop (h.absent hk)
      rw [heq]
      exact ⟨⟨hcan, h.holds.insert (by simpa using hk) hperm⟩, rfl⟩
  | delItem k =>
    simp only [step, specStep]
    split
    · next hk =>
      obtain ⟨v, hv⟩ := (h.holds.isSome_iff k).mp hk
      obtain ⟨root', heq, hperm, hcan⟩ := hs.del h.canonical hv
      rw [heq]
      exact ⟨⟨hcan, h.holds.erase (hs.nodup_keys h.canonical) hperm⟩, rfl⟩
    · next hk =>
      rw [delItem_absent fun v hv => h.absent hk v ((hs.walk_iff h.canonical k v).mp hv)]
      exact ⟨h, rfl⟩
  | updateGiveItem k x isTransaction hasMeta =>
    simp only [step, specStep]
    split
    · next hk =>
      obtain ⟨root', heq, hrep, hcan⟩ := hs.update h.canonical hop ((h.holds.isSome_iff k).mp hk)
      rw [heq]
      exact ⟨⟨hcan, h.holds.replace (hs.nodup_keys h.canonical) hk hrep⟩, rfl⟩
    · next hk =>
      rw [updateGiveItem_absent fun v hv => h.absent hk v ((hs.walk_iff h.canonical k v).mp hv)]
      exact ⟨h, rfl⟩

theorem Sound.run_refines (hroot : Refines Canonical root noItems)
    (hops : ∀ op ∈ ops, ok op) :
    Refines Canonical (runOps (step ver) root ops).1 (runOps specStep noItems ops).1 ∧
      (runOps (step ver) root ops).2 = (runOps specStep noItems ops).2 :=
  runOps_simulates hs.step_refines hops hroot

theorem Sound.run_lookups (hroot : Refines Canonical root noItems)
    (hops : ∀ op ∈ ops, ok op) (k : Key) :
    peekItem (runOps (step ver) root ops).1 k = ((runOps specStep noItems ops).1 k).map Leaf.data ∧
      hasItem (runOps (step ver) root ops).1 k = ((runOps specStep noItems ops).1 k).isSome := by
  rw [peekItem, hasItem, (hs.run_refines hroot hops).1.findKey_eq hs]
  exact ⟨rfl, rfl⟩

theorem Sound.perm [Version L'] {ver' : VersionOps L' D} {Canonical' : Tree L' D → Prop}
    {ok' : Op D → Prop} (hs' : Sound ver' Canonical' ok')
    {root' : Tree L' D} (h : Refines Canonical root m) (h' : Refines Canonical' root' m) :
    root.items.Perm root'.items :=
  h.holds.perm h'.holds (hs.nodup_keys h.canonical).of_map (hs'.nodup_keys h'.canonical).of_map

end

end Ripple.SHAMap
