import Ripple.Lib.OrderedMap

/-!
# Ripple.LedgerTrie.Basic

`consensus/LedgerTrie.h`: the interface a ledger type offers, spans of a ledger's ancestry, the nodes of
the compressed trie, the trie itself and its operations.

A `Node*` of the source is a `Loc`: the node together with the chain that its `parent` pointers
lead through. One link of that chain is a `Frame`, the parent without the child the pointer comes
from, so following `parent` is taking the first frame and a node without frames is the root.

The loops that walk from a node to the root are recursions over the frames of a `Loc`:
`addBranch` is the loop that raises `branchSupport`, `subBranch` the one that lowers it, and
`compress` the loop of `remove` that erases a node or merges it into its only child.
-/

namespace Ripple

/-- What `LedgerTrie<Ledger>` and `Validations` ask of a ledger type. `ancestor l s` is the source's
`l[s]`, the id of the ancestor of `l` with sequence number `s`. -/
class Ledger (L : Type) (ID : outParam Type) where
  makeGenesis : L
  seq : L → Nat
  id : L → ID
  ancestor : L → Nat → ID
  mismatch : L → L → Nat

open Ledger (seq ancestor mismatch)

namespace LedgerTrie

structure SpanTip (L ID : Type) where
  seq : Nat
  id : ID
  ledger : L
deriving DecidableEq

def SpanTip.ancestor {L ID : Type} [Ledger L ID] (tip : SpanTip L ID) (s : Nat) : ID :=
  Ledger.ancestor tip.ledger s

/-- The half-open interval `[start_, end_)` of the ancestry of `ledger_`; never empty. -/
structure Span (L : Type) where
  start_ : Nat
  end_ : Nat
  ledger_ : L
  nonempty : start_ < end_

namespace Span

variable {L ID : Type} [Ledger L ID]

def genesis : Span L := ⟨0, 1, Ledger.makeGenesis, Nat.zero_lt_one⟩

def ofLedger (ledger : L) : Span L := ⟨0, seq ledger + 1, ledger, Nat.succ_pos _⟩

variable (s : Span L)

def clamp (val : Nat) : Nat := min (max s.start_ val) s.end_

/-- The part of the span in `[lo, hi)`, or none when there is no such part. -/
def sub (lo hi : Nat) : Option (Span L) :=
  if h : s.clamp lo < s.clamp hi then some ⟨s.clamp lo, s.clamp hi, s.ledger_, h⟩ else none

def from_ (spot : Nat) : Option (Span L) := s.sub spot s.end_

def before (spot : Nat) : Option (Span L) := s.sub s.start_ spot

def startID : ID := ancestor s.ledger_ s.start_

/-- The first sequence number of the span at which it may differ from `o`. -/
def diff (o : L) : Nat := s.clamp (mismatch s.ledger_ o)

def tip : SpanTip L ID :=
  ⟨s.end_ - 1, ancestor s.ledger_ (s.end_ - 1), s.ledger_⟩

/-- The combined span, with the ledger of the span that reaches further. -/
def merge (a b : Span L) : Span L :=
  if a.end_ < b.end_ then
    ⟨min a.start_ b.start_, b.end_, b.ledger_, lt_of_le_of_lt (min_le_right _ _) b.nonempty⟩
  else ⟨min a.start_ b.start_, a.end_, a.ledger_, lt_of_le_of_lt (min_le_left _ _) a.nonempty⟩

end Span

/-- A node of the trie. `tipSupport` and `branchSupport` are the source's `uint32_t` counters. -/
structure Node (L : Type) where
  span : Span L
  tipSupport : UInt32
  branchSupport : UInt32
  children : List (Node L)

/-- A parent node seen from one of its children: the children in front of it and behind it. -/
structure Frame (L : Type) where
  span : Span L
  tipSupport : UInt32
  branchSupport : UInt32
  front : List (Node L)
  back : List (Node L)

def Frame.plug {L : Type} (f : Frame L) (n : Node L) : Node L :=
  ⟨f.span, f.tipSupport, f.branchSupport, f.front ++ n :: f.back⟩

/-- A pointer into the trie: a node and the parents above it, nearest first. -/
structure Loc (L : Type) where
  node : Node L
  parents : List (Frame L)

/-- The root that is reached by following the `parent` pointers. -/
def rebuild {L : Type} : Node L → List (Frame L) → Node L
  | n, [] => n
  | n, f :: fs => rebuild (f.plug n) fs

def Loc.root {L : Type} (loc : Loc L) : Node L := rebuild loc.node loc.parents

end LedgerTrie

/-- The trie: its root and the tip support at each sequence number. -/
structure LedgerTrie (L : Type) where
  root : LedgerTrie.Node L
  seqSupport : OrderedMap Nat UInt32

namespace LedgerTrie

variable {L ID : Type} [Ledger L ID]

def make : LedgerTrie L := ⟨⟨Span.genesis, 0, 0, []⟩, OrderedMap.empty⟩

variable (t : LedgerTrie L)

def empty : Bool := t.root.branchSupport == 0

/-! ## `find` -/

mutual

/-- The loop of `find`: `pos` is how far the node in hand matches the ledger. -/
def findFrom (ledger : L) (parents : List (Frame L)) (pos : Nat) : Node L → Loc L × Nat
  | ⟨span, tip, branch, children⟩ =>
    if pos = span.end_ then
      findChild ledger parents pos ⟨span, tip, branch, children⟩ [] children
    else (⟨⟨span, tip, branch, children⟩, parents⟩, pos)

/-- The first of the remaining children that matches further than `pos`. -/
def findChild (ledger : L) (parents : List (Frame L)) (pos : Nat) (curr : Node L)
    (front : List (Node L)) : List (Node L) → Loc L × Nat
  | [] => (⟨curr, parents⟩, pos)
  | child :: back =>
    if child.span.diff ledger > pos then
      findFrom ledger (⟨curr.span, curr.tipSupport, curr.branchSupport, front, back⟩ :: parents)
        (child.span.diff ledger) child
    else findChild ledger parents pos curr (front ++ [child]) back

end

/-- The node with the longest common ancestry with `ledger`, and the first sequence number at
which the two differ. -/
def find (ledger : L) : Loc L × Nat :=
  findFrom ledger [] (t.root.span.diff ledger) t.root

/-! ## Support counters -/

variable (n : Node L)

def Node.addBranch (count : UInt32) : Node L :=
  { n with branchSupport := n.branchSupport + count }

def Frame.addBranch (f : Frame L) (count : UInt32) : Frame L :=
  { f with branchSupport := f.branchSupport + count }

def Node.subBranch (count : UInt32) : Node L :=
  { n with branchSupport := n.branchSupport - count }

def Frame.subBranch (f : Frame L) (count : UInt32) : Frame L :=
  { f with branchSupport := f.branchSupport - count }

def addSeq (m : OrderedMap Nat UInt32) (s : Nat) (count : UInt32) : OrderedMap Nat UInt32 :=
  m.insert s ((m.find? s).getD 0 + count)

/-- Lower the support at `s`, dropping the entry when none is left. -/
def subSeq (m : OrderedMap Nat UInt32) (s : Nat) (count : UInt32) : OrderedMap Nat UInt32 :=
  match m.find? s with
  | none => m
  | some c => if c - count = 0 then m.erase s else m.insert s (c - count)

/-! ## `insert` -/

/-- Truncate a node to `pre` and hand its support and children to a new child spanning
`oldSuffix`. -/
def Node.split (pre oldSuffix : Span L) : Node L :=
  ⟨pre, 0, n.branchSupport, [⟨oldSuffix, n.tipSupport, n.branchSupport, n.children⟩]⟩

/-- The node found by `insert` after the part that differs from the ledger was split off. -/
def insertSplit (diffSeq : Nat) : Node L :=
  match n.span.from_ diffSeq, n.span.before diffSeq with
  | some oldSuffix, some pre => n.split pre oldSuffix
  | _, _ => n

/-- The node whose support `insert` raises: a new last child for the rest of the ledger's history,
or the node itself when nothing is left. -/
def insertLoc (parents : List (Frame L)) (newSuffix : Option (Span L)) : Loc L :=
  match newSuffix with
  | some s =>
    ⟨⟨s, 0, 0, []⟩, ⟨n.span, n.tipSupport, n.branchSupport, n.children, []⟩ :: parents⟩
  | none => ⟨n, parents⟩

/-- Raise the tip support of a node, and the branch support from it to the root. -/
def Loc.addSupport (loc : Loc L) (count : UInt32) : Node L :=
  rebuild ({ loc.node with tipSupport := loc.node.tipSupport + count }.addBranch count)
    (loc.parents.map (·.addBranch count))

def insert (ledger : L) (count : UInt32) : LedgerTrie L :=
  let (loc, diffSeq) := t.find ledger
  let newSuffix := (Span.ofLedger ledger).from_ diffSeq
  let incNode := insertLoc (insertSplit loc.node diffSeq) loc.parents newSuffix
  ⟨incNode.addSupport count, addSeq t.seqSupport (seq ledger) count⟩

/-! ## `remove` -/

/-- `Node::erase`: the last child takes the place of the one that is erased. -/
def eraseSwap (front back : List (Node L)) : List (Node L) :=
  match back.getLast? with
  | none => front
  | some last => front ++ last :: back.dropLast

/-- The last loop of `remove`: a node without tip support is erased if it has no child and merged if
one. -/
def compress : Node L → List (Frame L) → Node L
  | loc, [] => loc
  | loc, f :: fs =>
    if loc.tipSupport = 0 then
      match loc.children with
      | [] => compress ⟨f.span, f.tipSupport, f.branchSupport, eraseSwap f.front f.back⟩ fs
      | [child] =>
        let merged := { child with span := loc.span.merge child.span }
        compress ⟨f.span, f.tipSupport, f.branchSupport,
          eraseSwap f.front (f.back ++ [merged])⟩ fs
      | _ => rebuild loc (f :: fs)
    else rebuild loc (f :: fs)

/-- Lower the tip support of a node and the branch support from it to the root, then compress. -/
def Loc.subSupport (loc : Loc L) (count : UInt32) : Node L :=
  compress ({ loc.node with tipSupport := loc.node.tipSupport - count }.subBranch count)
    (loc.parents.map (·.subBranch count))

def exactMatch (diffSeq : Nat) (ledger : L) : Bool :=
  diffSeq == n.span.end_ && diffSeq > seq ledger

def remove (ledger : L) (count : UInt32) : Bool × LedgerTrie L :=
  let (loc, diffSeq) := t.find ledger
  if exactMatch loc.node diffSeq ledger && loc.node.tipSupport > 0 then
    let count := min count loc.node.tipSupport
    (true, ⟨loc.subSupport count, subSeq t.seqSupport (seq ledger) count⟩)
  else (false, t)

/-! ## Queries -/

def tipSupport (t : LedgerTrie L) (ledger : L) : UInt32 :=
  let (loc, diffSeq) := t.find ledger
  if exactMatch loc.node diffSeq ledger then loc.node.tipSupport else 0

def branchSupport (t : LedgerTrie L) (ledger : L) : UInt32 :=
  let (loc, diffSeq) := t.find ledger
  if diffSeq > seq ledger && seq ledger < loc.node.span.end_ then loc.node.branchSupport else 0

/-! ## `checkInvariants`

The stack of the source holds the children that are still to be visited, the last one on top; the
recursion visits them in that order. A child's `parent` is the node it is found under, so the
source's test of the pointer has no counterpart. -/

mutual

/-- The tests of one node and of everything below it; returns the expected support map. -/
def checkFrom (isRoot : Bool) :
    Node L → OrderedMap Nat UInt32 → Option (OrderedMap Nat UInt32)
  | ⟨span, tip, branch, children⟩, expected =>
    if !isRoot && tip == 0 && children.length < 2 then none
    else
      let expected := if tip ≠ 0 then addSeq expected (span.end_ - 1) tip else expected
      if tip.toNat + (children.map (·.branchSupport.toNat)).sum ≠ branch.toNat then none
      else checkChildren children expected

def checkChildren :
    List (Node L) → OrderedMap Nat UInt32 → Option (OrderedMap Nat UInt32)
  | [], expected => some expected
  | child :: rest, expected => (checkChildren rest expected).bind (checkFrom false child)

end

def checkInvariants : Bool :=
  match checkFrom true t.root OrderedMap.empty with
  | none => false
  | some expectedSeqSupport => expectedSeqSupport = t.seqSupport

/-! ## `getPreferred`

The method is `const`, but it sorts the `children` vectors of the nodes it walks through, so the model
returns the reordered trie beside the preferred tip. -/

/-- Count the support at sequences below `bound` as uncommitted. -/
def skipBelow (bound : Nat) (uncommitted : UInt32) :
    List (Nat × UInt32) → UInt32 × List (Nat × UInt32)
  | [] => (uncommitted, [])
  | (s, c) :: it =>
    if s < bound then skipBelow bound (uncommitted + c) it else (uncommitted, (s, c) :: it)

/-- Advance `nextSeq` along a span, from one change of `seqSupport` to the next, while the branch
support exceeds the uncommitted support. -/
def advance (spanEnd : Nat) (branch : UInt32) (nextSeq : Nat) (uncommitted : UInt32) :
    List (Nat × UInt32) → Nat × UInt32 × List (Nat × UInt32)
  | [] =>
    if nextSeq < spanEnd ∧ branch > uncommitted then (spanEnd, uncommitted, [])
    else (nextSeq, uncommitted, [])
  | (s, c) :: it =>
    if nextSeq < spanEnd ∧ branch > uncommitted then
      if s < spanEnd then advance spanEnd branch (s + 1) (uncommitted + c) it
      else (spanEnd, uncommitted, (s, c) :: it)
    else (nextSeq, uncommitted, (s, c) :: it)

section Order

variable [LinearOrder ID]

/-- The comparison of the sort: larger branch support first, ties broken by the span's first id. -/
def outranks (a b : Node L) : Bool :=
  a.branchSupport > b.branchSupport ||
    (a.branchSupport == b.branchSupport && a.span.startID > b.span.startID)

/-- Scan the remaining elements with the two best so far in hand. -/
def scanTopTwo (hi lo : Node L) : List (Node L) → Node L × Node L × List (Node L)
  | [] => (hi, lo, [])
  | x :: xs =>
    if outranks x hi then
      let (h, l, rest) := scanTopTwo x hi xs
      (h, l, lo :: rest)
    else if outranks x lo then
      let (h, l, rest) := scanTopTwo hi x xs
      (h, l, lo :: rest)
    else
      let (h, l, rest) := scanTopTwo hi lo xs
      (h, l, x :: rest)

/-- The children when there are at least two of them, with the two best in front. -/
def sortTopTwo (a b : Node L) (rest : List (Node L)) : Node L × Node L × List (Node L) :=
  if outranks b a then scanTopTwo b a rest else scanTopTwo a b rest

theorem scanTopTwo_perm (hi lo : Node L) (xs : List (Node L)) :
    ((scanTopTwo hi lo xs).1 :: (scanTopTwo hi lo xs).2.1 :: (scanTopTwo hi lo xs).2.2).Perm
      (hi :: lo :: xs) := by
  induction xs generalizing hi lo with
  | nil => exact .refl _
  | cons x xs ih =>
    -- each case moves one element out of the first two places
    have out : ∀ {h l d : Node L} {r : List (Node L)}, (h :: l :: d :: r).Perm (d :: h :: l :: r) :=
      fun {h l d r} => (List.Perm.swap d l r).cons h |>.trans (.swap d h (l :: r))
    simp only [scanTopTwo]
    split
    · exact (out.trans ((ih x hi).cons lo)).trans ((List.Perm.swap x lo _).trans
        ((List.Perm.swap hi lo xs).cons x |>.trans (.swap hi x _) |>.trans
          ((List.Perm.swap lo x xs).cons hi)))
    · split
      · exact (out.trans ((ih hi x).cons lo)).trans (.swap hi lo _)
      · exact (out.trans ((ih hi lo).cons x)).trans out.symm

theorem sortTopTwo_perm (a b : Node L) (rest : List (Node L)) :
    ((sortTopTwo a b rest).1 :: (sortTopTwo a b rest).2.1 :: (sortTopTwo a b rest).2.2).Perm
      (a :: b :: rest) := by
  simp only [sortTopTwo]
  split
  · exact (scanTopTwo_perm b a rest).trans (.swap a b rest)
  · exact scanTopTwo_perm a b rest

theorem sortTopTwo_best_mem (a b : Node L) (rest : List (Node L)) :
    (sortTopTwo a b rest).1 ∈ a :: b :: rest :=
  (sortTopTwo_perm a b rest).subset List.mem_cons_self

/-- By how much the best child leads; the tie-break in its favour counts for one more. -/
def margin (best second : Node L) : UInt32 :=
  if best.span.startID > second.span.startID then
    best.branchSupport - second.branchSupport + 1
  else best.branchSupport - second.branchSupport

/-- The loop of `getPreferred` from the node `curr`, with the root it leaves behind. -/
def preferFrom (largestIssued : Nat) (parents : List (Frame L)) (curr : Node L)
    (uncommitted : UInt32) (it : List (Nat × UInt32)) : SpanTip L ID × Node L :=
  let span := curr.span
  let (uncommitted, it) := skipBelow (max (span.start_ + 1) largestIssued) uncommitted it
  let (nextSeq, uncommitted, it) :=
    advance span.end_ curr.branchSupport (span.start_ + 1) uncommitted it
  if nextSeq < span.end_ then
    (((span.before nextSeq).getD span).tip, rebuild curr parents)
  else
    match _hcs : curr.children with
    | [] => (span.tip, rebuild curr parents)
    | [best] =>
      if best.branchSupport > uncommitted || uncommitted == 0 then
        preferFrom largestIssued
          (⟨span, curr.tipSupport, curr.branchSupport, [], []⟩ :: parents) best uncommitted it
      else (span.tip, rebuild curr parents)
    | a :: b :: rest =>
      let sorted := sortTopTwo a b rest
      let best := sorted.1
      let second := sorted.2.1
      if margin best second > uncommitted || uncommitted == 0 then
        preferFrom largestIssued
          (⟨span, curr.tipSupport, curr.branchSupport, [], second :: sorted.2.2⟩ :: parents)
          best uncommitted it
      else
        (span.tip, rebuild { curr with children := best :: second :: sorted.2.2 } parents)
termination_by sizeOf curr
decreasing_by
  · obtain ⟨s, t, b, cs⟩ := curr
    simp only at _hcs
    subst _hcs
    simp only [Node.mk.sizeOf_spec, List.cons.sizeOf_spec]
    omega
  · obtain ⟨s, t, br, cs⟩ := curr
    simp only at _hcs
    subst _hcs
    have := List.sizeOf_lt_of_mem (sortTopTwo_best_mem a b rest)
    simp only [Node.mk.sizeOf_spec]
    omega

/-- The preferred tip, if any ledger is supported, and the trie with its children reordered. -/
def getPreferred (largestIssued : Nat) : Option (SpanTip L ID) × LedgerTrie L :=
  if t.empty then (none, t)
  else
    let r := preferFrom largestIssued [] t.root 0 t.seqSupport.entries
    (some r.1, { t with root := r.2 })

end Order

end LedgerTrie
end Ripple
