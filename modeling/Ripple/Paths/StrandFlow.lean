import Mathlib
import Ripple.Protocol.TER
import Ripple.Protocol.STAmount

/-!
# Ripple.Paths.StrandFlow

A payment over several strands: in each pass every active strand is tried on the sandbox as it is, and
the result of the best one is committed, until the request is met, the send maximum is used up or
no strand yields anything. What one strand does is a parameter, and so are the amounts, which are
added exactly.

* `search_best`: the committed result is the best of those examined.
* `flow_keeps_limits`: what holds of the passes of a payment and of its result.
-/

namespace Ripple.Paths

open Protocol List

/-! ## The model -/

variable {S Strand Quality In Out : Type}

/-- The result of executing one strand: the amounts with the sandbox they leave, or an error. -/
inductive StrandResult (S In Out : Type) where
  | success (inn : In) (out : Out) (sandbox : S) (ofrsToRm : Finset Uint256) (inactive : Bool)
  | failure (ter : TER) (ofrsToRm : Finset Uint256)

def StrandResult.ofrsToRm : StrandResult S In Out → Finset Uint256
  | .success _ _ _ ofrsToRm _ => ofrsToRm
  | .failure _ ofrsToRm => ofrsToRm

structure Market (S Strand Quality In Out : Type) where
  /-- `flow` over one strand, with the remaining input and output. -/
  flowStrand : S → Strand → Option In → Out → StrandResult S In Out
  qualityUpperBound : S → Strand → Option Quality
  quality : Out → In → Quality
  /-- Delete an offer, if it is in the sandbox. -/
  removeOffer : S → Uint256 → S

structure Request (Quality In Out : Type) where
  outReq : Out
  partialPayment : Bool
  offerCrossing : Bool
  limitQuality : Option Quality
  sendMaxST : Option In

structure ActiveStrands (Strand : Type) where
  cur_ : List Strand
  next_ : List Strand

namespace ActiveStrands

variable (a : ActiveStrands Strand)

def activateNext : ActiveStrands Strand := ⟨a.next_, []⟩

def push (strand : Strand) : ActiveStrands Strand := { a with next_ := a.next_ ++ [strand] }

def size : Nat := a.cur_.length

def removeIndex (i : Nat) : ActiveStrands Strand :=
  if i ≥ a.next_.length then a else { a with next_ := a.next_.eraseIdx i }

end ActiveStrands

structure BestStrand (S Strand Quality In Out : Type) where
  inn : In
  out : Out
  sb : S
  strand : Strand
  quality : Quality

structure Search (S Strand Quality In Out : Type) where
  activeStrands : ActiveStrands Strand
  ofrsToRm : Finset Uint256 := ∅
  best : Option (BestStrand S Strand Quality In Out) := none
  markInactiveOnUse : Option Nat := none

structure FlowState (S Strand In Out : Type) where
  curTry : Nat
  remainingIn : Option In
  remainingOut : Out
  sb : S
  activeStrands : ActiveStrands Strand
  savedIns : Multiset In
  savedOuts : Multiset Out
  ofrsToRmOnFail : Finset Uint256

def FlowState.nextTry (s : FlowState S Strand In Out) : FlowState S Strand In Out :=
  { s with curTry := s.curTry + 1 }

@[simp] theorem FlowState.nextTry_savedOuts (s : FlowState S Strand In Out) :
    s.nextTry.savedOuts = s.savedOuts := rfl

@[simp] theorem FlowState.nextTry_savedIns (s : FlowState S Strand In Out) :
    s.nextTry.savedIns = s.savedIns := rfl

structure FlowResult (S In Out : Type) where
  ter : TER
  inn : In
  out : Out
  sandbox : Option S
  removableOffers : Finset Uint256

variable [LinearOrder Quality] [LinearOrder Out]

/-- The best result so far gives way to one of higher quality, or of the same quality and more
output. -/
def improves (best : Option (BestStrand S Strand Quality In Out)) (q : Quality) (out : Out) : Bool :=
  match best with
  | none => true
  | some b => decide (b.quality < q ∨ b.quality = q ∧ b.out < out)

variable {best : Option (BestStrand S Strand Quality In Out)} {q : Quality} {out : Out}

theorem improves_le (h : improves best q out = true) : ∀ b, best = some b → b.quality ≤ q := by
  rintro b rfl
  rcases (of_decide_eq_true h : b.quality < q ∨ b.quality = q ∧ b.out < out) with hlt | ⟨heq, -⟩
  · exact hlt.le
  · exact heq.le

theorem le_of_not_improves (h : improves best q out = false) :
    ∃ b, best = some b ∧ q ≤ b.quality := by
  cases best with
  | none => cases h
  | some b =>
    have hnot : ¬(b.quality < q ∨ b.quality = q ∧ b.out < out) := of_decide_eq_false h
    exact ⟨b, rfl, not_lt.mp fun hlt => hnot (.inl hlt)⟩

section Search

variable (market : Market S Strand Quality In Out) (req : Request Quality In Out)

/-- In an offer crossing a strand is passed over if its quality cannot reach the limit. -/
def passesOver (sb : S) (strand : Strand) : Bool :=
  match req.offerCrossing, req.limitQuality with
  | true, some limit =>
    match market.qualityUpperBound sb strand with
    | some strandQ => decide (strandQ < limit)
    | none => true
  | _, _ => false

def belowLimit (q : Quality) : Bool :=
  match req.limitQuality with
  | some limit => decide (q < limit)
  | none => false

variable {q : Quality} {p : Search S Strand Quality In Out} {seen : List Strand} {strand : Strand}
  {sandbox : S} {out : Out} {inn : In}

omit [LinearOrder Out] in
variable {req} in
theorem le_of_belowLimit_false {limit : Quality} (h : belowLimit req q = false)
    (hlimit : req.limitQuality = some limit) : limit ≤ q := by
  simpa [belowLimit, hlimit] using h

omit [LinearOrder Out] in
variable {req} in
theorem lt_of_belowLimit (h : belowLimit req q = true) :
    ∃ limit, req.limitQuality = some limit ∧ q < limit := by
  unfold belowLimit at h
  split at h
  · rename_i limit hlimit
    exact ⟨limit, hlimit, of_decide_eq_true h⟩
  · cases h

variable [AddCommGroup Out]

def examine (s : FlowState S Strand In Out) (p : Search S Strand Quality In Out) (strand : Strand) :
    Search S Strand Quality In Out :=
  if passesOver market req s.sb strand then p
  else
    let f := market.flowStrand s.sb strand s.remainingIn s.remainingOut
    -- bad offers go even if the strand failed
    let p := { p with ofrsToRm := p.ofrsToRm ∪ f.ofrsToRm }
    match f with
    | .failure _ _ => p
    | .success inn out sandbox _ inactive =>
      let q := market.quality out inn
      if out = 0 ∨ belowLimit req q then p
      else
        let p := { p with activeStrands := p.activeStrands.push strand }
        if improves p.best q out then
          { p with
            markInactiveOnUse := if inactive then some (p.activeStrands.size - 1) else none
            best := some ⟨inn, out, sandbox, strand, q⟩ }
        else p

def search (s : FlowState S Strand In Out) : Search S Strand Quality In Out :=
  let active := s.activeStrands.activateNext
  active.cur_.foldl (examine market req s) { activeStrands := active }

/-- The strand result that the pass from `s` commits. -/
def committed (s : FlowState S Strand In Out) : Option (BestStrand S Strand Quality In Out) :=
  (search market req s).best

variable {market} {req} {s : FlowState S Strand In Out}

/-- The strand is executed in the pass that starts at `s` and yields these amounts. -/
structure Yields (market : Market S Strand Quality In Out) (req : Request Quality In Out)
    (s : FlowState S Strand In Out) (strand : Strand) (inn : In) (out : Out) (sandbox : S) : Prop where
  active : strand ∈ s.activeStrands.next_
  examined : passesOver market req s.sb strand = false
  result : ∃ ofrsToRm inactive, market.flowStrand s.sb strand s.remainingIn s.remainingOut =
    .success inn out sandbox ofrsToRm inactive
  nonzero : out ≠ 0

/-- `p` holds the best of the results that the strands in `seen` yield above the limit. -/
structure BestOf (market : Market S Strand Quality In Out) (req : Request Quality In Out)
    (s : FlowState S Strand In Out) (seen : List Strand) (p : Search S Strand Quality In Out) : Prop where
  yields : ∀ b, p.best = some b → Yields market req s b.strand b.inn b.out b.sb ∧
    b.quality = market.quality b.out b.inn ∧ belowLimit req b.quality = false
  greatest : ∀ strand ∈ seen, ∀ inn out sandbox, Yields market req s strand inn out sandbox →
    belowLimit req (market.quality out inn) = false →
    ∃ b, p.best = some b ∧ market.quality out inn ≤ b.quality

omit [LinearOrder Out] in
theorem BestOf.skip {p' : Search S Strand Quality In Out} (h : BestOf market req s seen p)
    (hbest : p'.best = p.best)
    (hskip : ∀ inn out sandbox, Yields market req s strand inn out sandbox →
      belowLimit req (market.quality out inn) = false →
      ∃ b, p.best = some b ∧ market.quality out inn ≤ b.quality) :
    BestOf market req s (seen ++ [strand]) p' where
  yields := by rw [hbest]; exact h.yields
  greatest := by
    intro other hother inn out sandbox hy hlimit
    rw [hbest]
    rcases mem_append.mp hother with hseen | hnew
    · exact h.greatest other hseen inn out sandbox hy hlimit
    · obtain rfl := mem_singleton.mp hnew
      exact hskip inn out sandbox hy hlimit

omit [LinearOrder Out] in
theorem Yields.unique {inn' : In} {out' : Out} {sandbox' : S} {ofrsToRm : Finset Uint256}
    {inactive : Bool} (h : Yields market req s strand inn out sandbox)
    (hf : market.flowStrand s.sb strand s.remainingIn s.remainingOut =
      .success inn' out' sandbox' ofrsToRm inactive) : inn = inn' ∧ out = out' := by
  obtain ⟨_, _, hresult⟩ := h.result
  rw [hresult] at hf
  injection hf with hin hout
  exact ⟨hin, hout⟩

theorem BestOf.examine (h : BestOf market req s seen p) (hactive : strand ∈ s.activeStrands.next_) :
    BestOf market req s (seen ++ [strand]) (examine market req s p strand) := by
  unfold Paths.examine
  split
  · rename_i hpass
    refine h.skip rfl fun _ _ _ hy _ => ?_
    simp [hy.examined] at hpass
  · rename_i hpass
    cases hf : market.flowStrand s.sb strand s.remainingIn s.remainingOut with
    | failure ter ofrs =>
      refine h.skip rfl fun _ _ _ hy _ => ?_
      obtain ⟨_, _, hresult⟩ := hy.result
      rw [hf] at hresult
      cases hresult
    | success inn out sandbox ofrs inactive =>
      dsimp only
      split
      · rename_i hpoor
        refine h.skip rfl fun _ _ _ hy hlimit => ?_
        obtain ⟨rfl, rfl⟩ := hy.unique hf
        rcases hpoor with hzero | hbelow
        · exact absurd hzero hy.nonzero
        · rw [hlimit] at hbelow
          cases hbelow
      · rename_i hgood
        obtain ⟨hnonzero, habove⟩ := not_or.mp hgood
        split
        · rename_i himp
          constructor
          · rintro b ⟨⟩
            exact ⟨⟨hactive, by simpa using hpass, ⟨ofrs, inactive, hf⟩, hnonzero⟩, rfl,
              by simpa using habove⟩
          · intro other hother inn' out' sandbox' hy hlimit
            refine ⟨_, rfl, ?_⟩
            rcases mem_append.mp hother with hseen | hnew
            · obtain ⟨b, hb, hle⟩ := h.greatest other hseen inn' out' sandbox' hy hlimit
              exact hle.trans (improves_le himp b hb)
            · obtain rfl := mem_singleton.mp hnew
              obtain ⟨rfl, rfl⟩ := hy.unique hf
              exact le_rfl
        · rename_i himp
          refine h.skip rfl fun _ _ _ hy _ => ?_
          obtain ⟨rfl, rfl⟩ := hy.unique hf
          exact le_of_not_improves (by simpa using himp)

theorem BestOf.foldl (hactive : ∀ strand ∈ seen, strand ∈ s.activeStrands.next_) :
    BestOf market req s seen
      (seen.foldl (Paths.examine market req s) { activeStrands := s.activeStrands.activateNext }) := by
  induction seen using List.reverseRecOn with
  | nil =>
    constructor
    · intro b hb
      cases hb
    · intro strand hstrand
      cases hstrand
  | append_singleton seen strand ih =>
    rw [forall_mem_append] at hactive
    rw [foldl_append]
    exact (ih hactive.1).examine (hactive.2 strand mem_cons_self)

theorem search_best : BestOf market req s s.activeStrands.next_ (search market req s) := BestOf.foldl fun _ h => h

theorem committed_greatest {b : BestStrand S Strand Quality In Out}
    (hb : committed market req s = some b) (hy : Yields market req s strand inn out sandbox) :
    market.quality out inn ≤ b.quality := by
  have hbest : BestOf market req s _ _ := search_best
  cases hlimit : belowLimit req (market.quality out inn) with
  | false =>
    obtain ⟨b', hb', hle⟩ := hbest.greatest strand hy.active inn out sandbox hy hlimit
    obtain rfl : b = b' := Option.some.inj (hb.symm.trans hb')
    exact hle
  | true =>
    obtain ⟨limit, hreq, hlt⟩ := lt_of_belowLimit hlimit
    exact hlt.le.trans (le_of_belowLimit_false (hbest.yields b hb).2.2 hreq)

/-! ## Strands that have used up their offers -/

/-- Is the strand pushed in the pass from `s`? -/
def pushes (market : Market S Strand Quality In Out) (req : Request Quality In Out) (s : FlowState S Strand In Out)
    (strand : Strand) : Bool :=
  !passesOver market req s.sb strand &&
    match market.flowStrand s.sb strand s.remainingIn s.remainingOut with
    | .failure _ _ => false
    | .success inn out _ _ _ => decide ¬(out = 0 ∨ belowLimit req (market.quality out inn))

/-- Is the strand inactive after the pass from `s`? -/
def inactiveIn (market : Market S Strand Quality In Out) (s : FlowState S Strand In Out) (strand : Strand) : Bool :=
  match market.flowStrand s.sb strand s.remainingIn s.remainingOut with
  | .failure _ _ => false
  | .success _ _ _ _ inactive => inactive

/-- What `p` has of the strands in `seen`. The mark is a place in the strands of this pass. -/
structure Swept (market : Market S Strand Quality In Out) (req : Request Quality In Out)
    (s : FlowState S Strand In Out)
    (seen : List Strand) (p : Search S Strand Quality In Out) : Prop where
  cur : p.activeStrands.cur_ = s.activeStrands.next_
  next : p.activeStrands.next_ = seen.filter (pushes market req s)
  mark : ∀ b, p.best = some b → b.strand ∈ p.activeStrands.next_ ∧
    p.markInactiveOnUse = if inactiveIn market s b.strand then some (s.activeStrands.next_.length - 1) else none

theorem Swept.examine (h : Swept market req s seen p) (strand : Strand) :
    Swept market req s (seen ++ [strand]) (examine market req s p strand) := by
  unfold Paths.examine
  split
  · rename_i hpass
    exact ⟨h.cur, by simp [h.next, pushes, hpass], h.mark⟩
  · rename_i hpass
    cases hf : market.flowStrand s.sb strand s.remainingIn s.remainingOut with
    | failure ter ofrs => exact ⟨h.cur, by simp [h.next, pushes, hf], h.mark⟩
    | success inn out sandbox ofrs inactive =>
      dsimp only
      split
      · rename_i hpoor
        exact ⟨h.cur, by simp [h.next, pushes, hf, hpoor], h.mark⟩
      · rename_i hgood
        have hnext : p.activeStrands.next_ ++ [strand] = (seen ++ [strand]).filter (pushes market req s) := by
          simp [h.next, pushes, hf, hpass, hgood]
        split
        · refine ⟨h.cur, hnext, ?_⟩
          rintro b ⟨⟩
          exact ⟨mem_append_right _ mem_cons_self, by simp [inactiveIn, hf, ActiveStrands.size,
            ActiveStrands.push, h.cur]⟩
        · exact ⟨h.cur, hnext, fun b hb => ⟨mem_append_left _ (h.mark b hb).1, (h.mark b hb).2⟩⟩

variable (market req s) in
theorem search_swept : Swept market req s s.activeStrands.next_ (search market req s) := by
  suffices h : ∀ seen, Swept market req s seen
      (seen.foldl (Paths.examine market req s) { activeStrands := s.activeStrands.activateNext }) from h _
  intro seen
  induction seen using List.reverseRecOn with
  | nil => exact ⟨rfl, rfl, fun _ hb => nomatch hb⟩
  | append_singleton seen strand ih =>
    rw [foldl_append]
    exact ih.examine strand

end Search

/-! ## The loop -/

variable [AddCommGroup Out] [LinearOrder In] [AddCommGroup In]

section Loop

variable (market : Market S Strand Quality In Out) (req : Request Quality In Out)

/-- A negative send maximum stands for no limit. -/
def Request.sendMax (req : Request Quality In Out) : Option In := req.sendMaxST.filter (0 ≤ ·)

variable (s : FlowState S Strand In Out)

def use (found : Search S Strand Quality In Out)
    (best : BestStrand S Strand Quality In Out) : FlowState S Strand In Out :=
  let savedIns := best.inn ::ₘ s.savedIns
  let savedOuts := best.out ::ₘ s.savedOuts
  { s with
    activeStrands := found.markInactiveOnUse.elim found.activeStrands found.activeStrands.removeIndex
    savedIns
    savedOuts
    remainingOut := req.outReq - savedOuts.sum
    remainingIn := req.sendMax.elim s.remainingIn fun sendMax => some (sendMax - savedIns.sum)
    sb := best.sb }

def removeOffers (sb : S) (ofrsToRm : Finset Uint256) : S :=
  (ofrsToRm.sort (· ≤ ·)).foldl market.removeOffer sb

def settle (found : Search S Strand Quality In Out) : FlowState S Strand In Out :=
  match found.best with
  | some best => use req s found best
  | none => { s with activeStrands := found.activeStrands }

def pass : FlowState S Strand In Out × Bool :=
  let found := search market req s
  let s := settle req s found
  ({ s with
      sb := removeOffers market s.sb found.ofrsToRm
      ofrsToRmOnFail := s.ofrsToRmOnFail ∪ found.ofrsToRm },
    found.best.isNone)

def maxTries : Nat := 1000

def FlowState.wanting : Bool :=
  decide (0 < s.remainingOut) && s.remainingIn.all (0 < ·)

theorem pass_curTry : (pass market req s).1.curTry = s.curTry := by
  simp only [pass, settle]
  split <;> rfl

def loop (s : FlowState S Strand In Out) : Bool × FlowState S Strand In Out :=
  if s.wanting then
    if s.nextTry.curTry ≥ maxTries then (true, s.nextTry)
    else
      let r := pass market req s.nextTry
      if r.2 then (false, r.1) else loop r.1
  else (false, s)
termination_by maxTries - s.curTry
decreasing_by
  rename_i hmore _
  simp only [pass_curTry, FlowState.nextTry] at hmore ⊢
  omega

def start (base : S) (strands : List Strand) : FlowState S Strand In Out where
  curTry := 0
  remainingIn := req.sendMax
  remainingOut := req.outReq
  sb := base
  activeStrands := ⟨[], strands⟩
  savedIns := 0
  savedOuts := 0
  ofrsToRmOnFail := ∅

def finish : FlowResult S In Out :=
  let actualOut := s.savedOuts.sum
  let actualIn := s.savedIns.sum
  if actualOut > req.outReq then ⟨TER.tefEXCEPTION, 0, 0, none, s.ofrsToRmOnFail⟩
  else if actualOut ≠ req.outReq ∧ !req.partialPayment ∧ !req.offerCrossing then
    ⟨TER.tecPATH_PARTIAL, actualIn, actualOut, none, s.ofrsToRmOnFail⟩
  else if actualOut ≠ req.outReq ∧ req.partialPayment ∧ actualOut = 0 then
    ⟨TER.tecPATH_DRY, 0, 0, none, s.ofrsToRmOnFail⟩
  else if req.offerCrossing ∧ !req.partialPayment ∧ s.remainingIn.any (· ≠ 0) then
    -- all of the input must be used, or the offer is killed
    ⟨TER.tecPATH_PARTIAL, actualIn, actualOut, none, s.ofrsToRmOnFail⟩
  else ⟨TER.tesSUCCESS, actualIn, actualOut, some s.sb, s.ofrsToRmOnFail⟩

def flow (base : S) (strands : List Strand) : FlowResult S In Out :=
  let ended := loop market req (start req base strands)
  if ended.1 then ⟨TER.telFAILED_PROCESSING, 0, 0, none, ended.2.ofrsToRmOnFail⟩
  else finish req ended.2

/-- The passes that the loop makes from `s`, each as the state at its start. -/
def passes (s : FlowState S Strand In Out) : List (FlowState S Strand In Out) :=
  if s.wanting then
    if s.nextTry.curTry ≥ maxTries then []
    else
      let r := pass market req s.nextTry
      s.nextTry :: if r.2 then [] else passes r.1
  else []
termination_by maxTries - s.curTry
decreasing_by
  rename_i hmore _
  simp only [pass_curTry, FlowState.nextTry] at hmore ⊢
  omega

def sbAfter : S :=
  removeOffers market ((committed market req s).elim s.sb (·.sb)) (search market req s).ofrsToRm

/-- The passes in `ps` lead from the sandbox `base` to `sb`, one after the other. -/
def Replays : S → List (FlowState S Strand In Out) → S → Prop
  | base, [], sb => sb = base
  | base, s :: ps, sb => s.sb = base ∧ Replays (sbAfter market req s) ps sb

end Loop

/-- The strand that is used and inactive is taken out, and only that one, if it is the last of the
strands and all of them were pushed: the place in the strands of this pass is used for those of the
next one. -/
theorem inactive_removed_iff {market : Market S Strand Quality In Out} {req : Request Quality In Out}
    {s : FlowState S Strand In Out} {b : BestStrand S Strand Quality In Out} (hb : committed market req s = some b)
    (hinactive : inactiveIn market s b.strand = true) :
    (b.strand :: (pass market req s).1.activeStrands.next_).Perm (search market req s).activeStrands.next_ ↔
      (∀ strand ∈ s.activeStrands.next_, pushes market req s strand = true) ∧
        s.activeStrands.next_.getLast? = some b.strand := by
  obtain ⟨hcur, hnext, hmark⟩ := search_swept market req s
  obtain ⟨hmem, hmark⟩ := hmark b hb
  have hafter : (pass market req s).1.activeStrands.next_ =
      ((search market req s).activeStrands.removeIndex (s.activeStrands.next_.length - 1)).next_ := by
    simp only [committed] at hb
    simp only [pass, settle, hb, use, hmark, hinactive, if_true, Option.elim_some]
  rw [hafter, ActiveStrands.removeIndex, hnext]
  rw [hnext] at hmem
  by_cases hall : ∀ strand ∈ s.activeStrands.next_, pushes market req s strand = true
  · -- every strand has kept its place
    rw [filter_eq_self.mpr hall] at hmem ⊢
    have hne := ne_nil_of_mem hmem
    have hpos := length_pos_of_ne_nil hne
    have hperm : s.activeStrands.next_.Perm
        ([s.activeStrands.next_.getLast hne] ++ s.activeStrands.next_.dropLast) := by
      conv_lhs => rw [← dropLast_append_getLast hne]
      exact perm_append_comm
    rw [if_neg (by omega), and_iff_right hall, getLast?_eq_some_getLast hne, Option.some.injEq, hperm.congr_right,
      ← singleton_append]
    dsimp only
    rw [eraseIdx_length_sub_one, perm_append_right_iff, singleton_perm_singleton, eq_comm]
  · have hlt : (s.activeStrands.next_.filter (pushes market req s)).length < s.activeStrands.next_.length := by
      rw [length_filter_lt_length_iff_exists]
      simpa using hall
    rw [if_pos (by omega)]
    refine iff_of_false (fun hperm => ?_) fun h => hall h.1
    simpa [hnext] using hperm.length_eq

/-- One strand sells a unit for one and is inactive then, the other one sells it for two. -/
def pairMarket : Market Unit Bool ℤ ℤ ℤ where
  flowStrand _ cheap _ _ := .success (if cheap then 1 else 2) 1 () ∅ cheap
  qualityUpperBound _ _ := none
  quality out inn := out - inn
  removeOffer sb _ := sb

def pairRequest : Request ℤ ℤ ℤ := ⟨5, true, false, none, none⟩

theorem inactive_removed_last :
    (true :: (pass pairMarket pairRequest (start pairRequest () [false, true])).1.activeStrands.next_).Perm
      (search pairMarket pairRequest (start pairRequest () [false, true])).activeStrands.next_ :=
  (inactive_removed_iff (b := ⟨1, 1, (), true, 0⟩) rfl rfl).mpr ⟨by decide, rfl⟩

/-- If the inactive strand is the first one, the other one is taken out. -/
theorem inactive_stays_first :
    (committed pairMarket pairRequest (start pairRequest () [true, false])).map (·.strand) = some true ∧
      inactiveIn pairMarket (start pairRequest () [true, false]) true = true ∧
      (search pairMarket pairRequest (start pairRequest () [true, false])).activeStrands.next_ = [true, false] ∧
      (pass pairMarket pairRequest (start pairRequest () [true, false])).1.activeStrands.next_ = [true] :=
  ⟨rfl, rfl, rfl, rfl⟩

/-! ## Whole payments -/

section Payment

variable {market : Market S Strand Quality In Out} {req : Request Quality In Out}

inductive Leads (market : Market S Strand Quality In Out) (req : Request Quality In Out) :
    FlowState S Strand In Out → List (FlowState S Strand In Out) → FlowState S Strand In Out → Prop
  | nil (s : _) : Leads market req s [] s
  | cons {s ps t} : Leads market req (pass market req s.nextTry).1 ps t →
      Leads market req s (s.nextTry :: ps) t

variable (market req) in
theorem loop_leads (s : FlowState S Strand In Out) :
    ∃ t, Leads market req s (passes market req s) t ∧
      ((loop market req s).1 = false → (loop market req s).2 = t) ∧
      ((loop market req s).1 = true → t.wanting = true) := by
  fun_induction loop market req s with
  | case1 s hwant hmore =>
    rw [passes, if_pos hwant, if_pos hmore]
    exact ⟨s, .nil s, by simp, fun _ => hwant⟩
  | case2 s hwant hmore r hdry =>
    rw [passes, if_pos hwant, if_neg hmore]
    exact ⟨r.1, by simpa [r, hdry] using Leads.cons (.nil _), fun _ => rfl, by simp⟩
  | case3 s hwant hmore r hgo ih =>
    rw [passes, if_pos hwant, if_neg hmore]
    obtain ⟨t, ht, hend⟩ := ih
    refine ⟨t, ?_, hend⟩
    dsimp only
    rw [if_neg hgo]
    exact .cons ht
  | case4 s hdone =>
    rw [passes, if_neg hdone]
    exact ⟨s, .nil s, fun _ => rfl, by simp⟩

theorem passes_length (s : FlowState S Strand In Out) :
    (passes market req s).length ≤ maxTries - s.curTry := by
  fun_induction passes market req s with
  | case1 => simp
  | case2 s hwant hmore r ih =>
    simp only [FlowState.nextTry] at hmore
    split
    · simp only [length_cons, length_nil]
      omega
    · rename_i hgo
      have htry : r.1.curTry = s.curTry + 1 := pass_curTry market req s.nextTry
      rw [htry] at ih
      simp only [length_cons]
      omega
  | case3 => simp

/-- How a payment ends with the state `s`: with the sandbox and the committed amounts, or without a
sandbox. -/
inductive Ends (req : Request Quality In Out) (s : FlowState S Strand In Out) :
    FlowResult S In Out → Prop
  | success (ofrs) : (req.partialPayment = false → req.offerCrossing = false →
      s.savedOuts.sum = req.outReq) →
      Ends req s ⟨TER.tesSUCCESS, s.savedIns.sum, s.savedOuts.sum, some s.sb, ofrs⟩
  | short (ofrs) {ter} : ter ≠ TER.tesSUCCESS →
      Ends req s ⟨ter, s.savedIns.sum, s.savedOuts.sum, none, ofrs⟩
  | nothing (ofrs) {ter} : ter ≠ TER.tesSUCCESS → Ends req s ⟨ter, 0, 0, none, ofrs⟩

omit [LinearOrder Quality] in
theorem finish_ends (s : FlowState S Strand In Out) : Ends req s (finish req s) := by
  unfold finish
  dsimp only
  split
  · exact .nothing _ (by decide)
  · split
    · exact .short _ (by decide)
    · rename_i hfull
      split
      · exact .nothing _ (by decide)
      · split
        · exact .short _ (by decide)
        · refine .success _ fun hwhole hcrossing => ?_
          by_contra hne
          exact hfull ⟨hne, by simp [hwhole], by simp [hcrossing]⟩

variable (market req) in
theorem flow_ends (base : S) (strands : List Strand) :
    ∃ t, Leads market req (start req base strands) (passes market req (start req base strands)) t ∧
      Ends req t (flow market req base strands) := by
  obtain ⟨t, ht, hend, -⟩ := loop_leads market req (start req base strands)
  refine ⟨t, ht, ?_⟩
  unfold flow
  dsimp only
  split
  · exact .nothing _ (by decide)
  · rename_i htries
    rw [hend (by simpa using htries)]
    exact finish_ends t

variable (market req) in
theorem pass_saved (s : FlowState S Strand In Out) :
    (pass market req s).1.savedOuts.sum =
        s.savedOuts.sum + ((committed market req s).elim 0 (·.out)) ∧
      (pass market req s).1.savedIns.sum =
        s.savedIns.sum + ((committed market req s).elim 0 (·.inn)) := by
  simp only [pass, settle, committed]
  split
  · rename_i b hb
    simp [hb, use, add_comm]
  · rename_i hb
    simp [hb]

variable (market req) in
theorem pass_sb (s : FlowState S Strand In Out) :
    (pass market req s).1.sb = sbAfter market req s := by
  simp only [pass, settle, sbAfter, committed]
  split
  · rename_i b hb
    simp [hb, use]
  · rename_i hb
    simp [hb]

variable {s : FlowState S Strand In Out} {ps : List (FlowState S Strand In Out)}
  {t : FlowState S Strand In Out}

theorem Leads.saved (h : Leads market req s ps t) :
    t.savedOuts.sum = s.savedOuts.sum + ((ps.filterMap (committed market req)).map (·.out)).sum ∧
      t.savedIns.sum = s.savedIns.sum + ((ps.filterMap (committed market req)).map (·.inn)).sum := by
  induction h with
  | nil s => simp
  | @cons s ps t _ ih =>
    have hsaved := pass_saved market req s.nextTry
    rw [hsaved.1, hsaved.2] at ih
    cases hb : committed market req s.nextTry with
    | none => simpa [hb] using ih
    | some b => simpa [hb, add_assoc] using ih

theorem Leads.replays (h : Leads market req s ps t) : Replays market req s.sb ps t.sb := by
  induction h with
  | nil s => rfl
  | @cons s ps t _ ih => exact ⟨rfl, pass_sb market req s.nextTry ▸ ih⟩

/-- A strand delivers something, at most what remains to be delivered, for at most what remains to
be spent. -/
def Market.Bounded (market : Market S Strand Quality In Out) : Prop :=
  ∀ sb strand remainingIn remainingOut inn out sandbox ofrsToRm inactive,
    market.flowStrand sb strand remainingIn remainingOut = .success inn out sandbox ofrsToRm inactive →
    0 < out ∧ out ≤ remainingOut ∧ ∀ m, remainingIn = some m → inn ≤ m

structure Tallied (req : Request Quality In Out) (s : FlowState S Strand In Out) : Prop where
  remainingOut : s.remainingOut = req.outReq - s.savedOuts.sum
  remainingIn : s.remainingIn = req.sendMax.map (· - s.savedIns.sum)

omit [LinearOrder Quality] [LinearOrder Out] in
theorem Tallied.start (base : S) (strands : List Strand) : Tallied req (start req base strands) := by
  constructor <;> simp [Paths.start]

theorem Tallied.pass (h : Tallied req s) : Tallied req (pass market req s).1 := by
  simp only [Paths.pass, settle]
  split
  · refine ⟨rfl, ?_⟩
    cases hmax : req.sendMax with
    | none => simp [use, hmax, h.remainingIn]
    | some sendMax => simp [use, hmax]
  · exact ⟨h.remainingOut, h.remainingIn⟩

theorem Leads.tallied (h : Leads market req s ps t) (hs : Tallied req s) : Tallied req t := by
  induction h with
  | nil s => exact hs
  | cons _ ih => exact ih (Tallied.pass (s := FlowState.nextTry _) ⟨hs.remainingOut, hs.remainingIn⟩)

structure Kept (req : Request Quality In Out) (s : FlowState S Strand In Out) : Prop extends Tallied req s where
  out_le : 0 ≤ req.outReq → s.savedOuts.sum ≤ req.outReq
  in_le : ∀ sendMax, req.sendMax = some sendMax → s.savedIns.sum ≤ sendMax

omit [LinearOrder Quality] in
theorem Kept.start (base : S) (strands : List Strand) : Kept req (start req base strands) where
  toTallied := .start base strands
  out_le := by simp [Paths.start]
  in_le := by
    intro sendMax h
    obtain ⟨-, hpos⟩ := Option.filter_eq_some_iff.mp h
    simpa [Paths.start] using hpos

omit [LinearOrder Quality] in
theorem Kept.nextTry (h : Kept req s) : Kept req s.nextTry :=
  ⟨⟨h.remainingOut, h.remainingIn⟩, h.out_le, h.in_le⟩

def results (market : Market S Strand Quality In Out) (req : Request Quality In Out) (base : S)
    (strands : List Strand) : List (BestStrand S Strand Quality In Out) :=
  (passes market req (start req base strands)).filterMap (committed market req)

/-! ## Fill or kill -/

/-- What `flowCross` asks for. `deliver` is what the offer of a buyer names. -/
def crossRequest (tfFillOrKill : Bool) (deliver : Out) (sendMax inStartBalance : In)
    (threshold : Quality) : Request Quality In Out :=
  ⟨deliver, !tfFillOrKill, true, some threshold, some (min sendMax inStartBalance)⟩

/-- The rule of `BasicTaker`: the input is used up, a buyer has all it wants, or the funds are gone. -/
def done (sell : Bool) (remaining : In × Out) (funds : In) : Bool :=
  decide (remaining.1 ≤ 0) || !sell && decide (remaining.2 ≤ 0) || decide (funds ≤ 0)

/-- Every strand charges this price for what it delivers. -/
def Market.Priced (market : Market S Strand Quality In Out) (price : Out →+ In) : Prop :=
  ∀ sb strand remainingIn remainingOut inn out sandbox ofrsToRm inactive,
    market.flowStrand sb strand remainingIn remainingOut = .success inn out sandbox ofrsToRm inactive →
    inn = price out

theorem Market.Priced.results {price : Out →+ In} (hprice : market.Priced price) (base : S)
    (strands : List Strand) : ((results market req base strands).map (·.inn)).sum =
      price ((results market req base strands).map (·.out)).sum := by
  rw [map_list_sum, List.map_map]
  refine congrArg List.sum (List.map_congr_left fun b hb => ?_)
  obtain ⟨s, -, hcommitted⟩ := List.mem_filterMap.mp hb
  obtain ⟨_, _, hresult⟩ := (search_best.yields b hcommitted).1.result
  exact hprice _ _ _ _ _ _ _ _ _ hresult

variable [IsOrderedAddMonoid In] [IsOrderedAddMonoid Out]

theorem Kept.pass (hm : market.Bounded) (h : Kept req s) : Kept req (pass market req s).1 := by
  obtain ⟨hout, hin⟩ := pass_saved market req s
  cases hb : committed market req s with
  | none =>
    rw [hb] at hout hin
    refine ⟨h.toTallied.pass, fun hpos => ?_, fun sendMax hmax => ?_⟩
    · simpa [hout] using h.out_le hpos
    · simpa [hin] using h.in_le sendMax hmax
  | some b =>
    rw [hb] at hout hin
    obtain ⟨_, _, hresult⟩ := (search_best.yields b hb).1.result
    obtain ⟨-, hle, hmost⟩ := hm _ _ _ _ _ _ _ _ _ hresult
    refine ⟨h.toTallied.pass, fun _ => ?_, fun sendMax hmax => ?_⟩
    · rw [hout]
      rw [h.remainingOut] at hle
      exact le_sub_iff_add_le'.mp hle
    · rw [hin]
      exact le_sub_iff_add_le'.mp (hmost (sendMax - s.savedIns.sum) (by simp [h.remainingIn, hmax]))

theorem Leads.kept (hm : market.Bounded) (h : Leads market req s ps t) (hs : Kept req s) :
    Kept req t := by
  induction h with
  | nil s => exact hs
  | cons _ ih => exact ih (hs.nextTry.pass hm)

theorem flow_keeps_limits (hm : market.Bounded) (base : S) (strands : List Strand) :
    let ps := passes market req (start req base strands)
    let totalOut := ((results market req base strands).map (·.out)).sum
    let totalIn := ((results market req base strands).map (·.inn)).sum
    let result := flow market req base strands
    ps.length ≤ 1000 ∧
    (0 ≤ req.outReq → totalOut ≤ req.outReq ∧ result.out ≤ req.outReq) ∧
    (∀ sendMax, req.sendMaxST = some sendMax → 0 ≤ sendMax →
      totalIn ≤ sendMax ∧ result.inn ≤ sendMax) ∧
    (∀ s ∈ ps, ∀ b, committed market req s = some b →
      Yields market req s b.strand b.inn b.out b.sb ∧ b.quality = market.quality b.out b.inn ∧
      (∀ limit, req.limitQuality = some limit → limit ≤ b.quality) ∧
      ∀ strand inn out sandbox, Yields market req s strand inn out sandbox →
        market.quality out inn ≤ b.quality) ∧
    (result.ter = TER.tesSUCCESS →
      result.out = totalOut ∧ result.inn = totalIn ∧
      ∃ sb, result.sandbox = some sb ∧ Replays market req base ps sb) ∧
    (result.ter = TER.tesSUCCESS → req.partialPayment = false → req.offerCrossing = false →
      result.out = req.outReq) ∧
    (result.ter ≠ TER.tesSUCCESS → result.sandbox = none) := by
  intro ps totalOut totalIn result
  obtain ⟨t, hleads, hends⟩ := flow_ends market req base strands
  have hkept := hleads.kept hm (.start base strands)
  have hout : t.savedOuts.sum = totalOut := hleads.saved.1.trans (zero_add _)
  have hin : t.savedIns.sum = totalIn := hleads.saved.2.trans (zero_add _)
  have hlen : ps.length ≤ 1000 := passes_length (start req base strands)
  have htotalOut : 0 ≤ req.outReq → totalOut ≤ req.outReq := hout ▸ hkept.out_le
  have htotalIn : ∀ sendMax, req.sendMaxST = some sendMax → 0 ≤ sendMax → totalIn ≤ sendMax := by
    intro sendMax hst hpos
    rw [← hin]
    exact hkept.in_le sendMax (by simp [Request.sendMax, hst, hpos])
  have hbest : ∀ s ∈ ps, ∀ b, committed market req s = some b →
      Yields market req s b.strand b.inn b.out b.sb ∧ b.quality = market.quality b.out b.inn ∧
      (∀ limit, req.limitQuality = some limit → limit ≤ b.quality) ∧
      ∀ strand inn out sandbox, Yields market req s strand inn out sandbox →
        market.quality out inn ≤ b.quality := by
    intro s _ b hb
    obtain ⟨hy, hq, hlimit⟩ := search_best.yields b hb
    exact ⟨hy, hq, fun _ => le_of_belowLimit_false hlimit, fun _ _ _ _ => committed_greatest hb⟩
  change Ends req t result at hends
  cases hr : result with | mk ter inn out sandbox ofrs =>
  rw [hr] at hends
  cases hends with
  | success _ hplain =>
    rw [hout] at hplain
    rw [hout, hin]
    exact ⟨hlen, fun hreq => ⟨htotalOut hreq, htotalOut hreq⟩,
      fun m hm hpos => ⟨htotalIn m hm hpos, htotalIn m hm hpos⟩, hbest,
      fun _ => ⟨rfl, rfl, t.sb, rfl, hleads.replays⟩, fun _ => hplain, fun hter => absurd rfl hter⟩
  | short _ hter =>
    rw [hout, hin]
    exact ⟨hlen, fun hreq => ⟨htotalOut hreq, htotalOut hreq⟩,
      fun m hm hpos => ⟨htotalIn m hm hpos, htotalIn m hm hpos⟩, hbest,
      fun h => absurd h hter, fun h => absurd h hter, fun _ => rfl⟩
  | nothing _ hter =>
    exact ⟨hlen, fun hreq => ⟨htotalOut hreq, hreq⟩, fun m hm hpos => ⟨htotalIn m hm hpos, hpos⟩, hbest,
      fun h => absurd h hter, fun h => absurd h hter, fun _ => rfl⟩

end Payment

/-- One strand that sells one unit at a time, for five. -/
def unitMarket : Market Unit Unit ℤ ℤ ℤ where
  flowStrand _ _ remainingIn remainingOut :=
    if 1 ≤ remainingOut ∧ remainingIn.all (5 ≤ ·) then .success 5 1 () ∅ false
    else .failure TER.tecPATH_DRY ∅
  qualityUpperBound _ _ := none
  quality out inn := out - inn
  removeOffer sb _ := sb

theorem unitMarket_bounded : unitMarket.Bounded := by
  intro sb strand remainingIn remainingOut inn out sandbox ofrsToRm inactive h
  simp only [unitMarket] at h
  split at h
  · rename_i hsells
    obtain ⟨rfl, rfl, -, -, -⟩ := h
    refine ⟨by decide, hsells.1, ?_⟩
    rintro m rfl
    simpa using hsells.2
  · cases h

theorem flow_keeps_limits_unit :
    (flow unitMarket ⟨2, true, false, none, some 7⟩ () [()]).inn ≤ 7 :=
  ((flow_keeps_limits unitMarket_bounded () [()]).2.2.1 7 rfl (by decide)).2

/-- The same with a bound on its quality, which offer crossing asks for. -/
def offerMarket : Market Unit Unit ℤ ℤ ℤ := { unitMarket with qualityUpperBound := fun _ _ => some 0 }

theorem results_offerMarket {sendMax : ℤ} (h : 5 ≤ sendMax) :
    results offerMarket (crossRequest true 1 sendMax sendMax (-10)) () [()] = [⟨5, 1, (), (), -4⟩] := by
  have hpos : 0 ≤ sendMax := by omega
  have hsome : 0 < sendMax := by omega
  rw [results, passes]
  simp [start, crossRequest, Request.sendMax, FlowState.wanting, FlowState.nextTry, maxTries, pass, search, examine,
    committed, passesOver, offerMarket, unitMarket, belowLimit, improves, settle, use, ActiveStrands.activateNext,
    ActiveStrands.push, hpos, hsome, h]
  rw [passes]
  simp [FlowState.wanting]

/-- A send maximum of minus one does not limit the payment. -/
theorem negative_sendMax_unlimited :
    unitMarket.Bounded ∧
      flow unitMarket ⟨1, false, false, none, some (-1)⟩ () [()] =
        ⟨TER.tesSUCCESS, 5, 1, some (), ∅⟩ ∧ ¬ (5 : ℤ) ≤ -1 := by
  refine ⟨unitMarket_bounded, ?_, by decide⟩
  have hmax : Request.sendMax ⟨(1 : ℤ), false, false, (none : Option ℤ), some (-1 : ℤ)⟩ = none := rfl
  rw [flow, loop]
  simp [start, hmax, FlowState.wanting, FlowState.nextTry, maxTries, pass, search, examine,
    passesOver, unitMarket, belowLimit, improves, settle, use, removeOffers, ActiveStrands.activateNext,
    ActiveStrands.push, StrandResult.ofrsToRm]
  -- one unit is delivered, and nothing remains
  rw [loop]
  simp [FlowState.wanting, finish]

end Ripple.Paths
