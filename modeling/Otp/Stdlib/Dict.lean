import Mathlib.Data.List.Basic

/-! Dictionaries by linear hashing (`dict.erl`). A tuple index out of range and a
clause that is missing give `none`. -/

namespace Otp.Dicts

/-- `erlang:phash/2` on the ranges that double. -/
structure PHash (Key : Type) where
  phash : Key → Int → Int
  buddy : ∀ key m, 0 < m → phash key (2 * m) = phash key m ∨ phash key (2 * m) = phash key m + m
  range : ∀ key m, 0 < m → 1 ≤ phash key (2 * m) ∧ phash key (2 * m) ≤ 2 * m

/-- What the functions need to know about values: the list of one value, `++`,
`is_number` and `+`, where `++` and `+` may fail. -/
structure Values (Value : Type) where
  single : Value → Value
  append : Value → Value → Option Value
  isNumber : Value → Bool
  add : Value → Value → Option Value

abbrev Bucket (Key Value : Type) := List (Key × Value)

abbrev Seg (Key Value : Type) := List (Bucket Key Value)

def segSize : Int := 16

def expandLoad : Int := 5

def contractLoad : Int := 3

structure Dict (Key Value : Type) where
  size : Int := 0
  n : Int := segSize
  maxn : Int := segSize
  bso : Int := segSize / 2
  expSize : Int := segSize * expandLoad
  conSize : Int := segSize * contractLoad
  empty : Seg Key Value
  segs : List (Seg Key Value)

variable {Key Value Item Acc Result : Type}

def mkSeg : Seg Key Value := [[], [], [], [], [], [], [], [], [], [], [], [], [], [], [], []]

def new : Dict Key Value := { empty := mkSeg, segs := [mkSeg] }

def element (i : Int) (tuple : List Item) : Option Item :=
  if 1 ≤ i then tuple[(i - 1).toNat]? else none

def setelement (i : Int) (tuple : List Item) (item : Item) : Option (List Item) :=
  if 1 ≤ i ∧ i ≤ tuple.length then some (tuple.set (i - 1).toNat item) else none

def segI (slot : Int) : Int := (slot - 1).tdiv segSize + 1

def bktI (slot : Int) : Int := (slot - 1).tmod segSize + 1

def getBucketS (segs : List (Seg Key Value)) (slot : Int) : Option (Bucket Key Value) := do
  let seg ← element (segI slot) segs
  element (bktI slot) seg

def putBucketS (segs : List (Seg Key Value)) (slot : Int) (bkt : Bucket Key Value) :
    Option (List (Seg Key Value)) := do
  let seg ← element (segI slot) segs
  let seg ← setelement (bktI slot) seg bkt
  setelement (segI slot) segs seg

def getBucket (t : Dict Key Value) (slot : Int) : Option (Bucket Key Value) :=
  getBucketS t.segs slot

/-- Apply `f` to the bucket in the slot and replace it. -/
def onBucket (f : Bucket Key Value → Option (Bucket Key Value × Result)) (t : Dict Key Value)
    (slot : Int) : Option (Dict Key Value × Result) := do
  let seg ← element (segI slot) t.segs
  let b0 ← element (bktI slot) seg
  let (b1, res) ← f b0
  let seg ← setelement (bktI slot) seg b1
  let segs ← setelement (segI slot) t.segs seg
  some ({ t with segs := segs }, res)

-- The clauses for tuples of up to sixteen segments do what the last clause does.

def expandSegs (segs : List (Seg Key Value)) (empty : Seg Key Value) : List (Seg Key Value) :=
  segs ++ List.replicate segs.length empty

def contractSegs (segs : List (Seg Key Value)) : List (Seg Key Value) := segs.take (segs.length / 2)

section

variable (hash : PHash Key)

def getSlot (t : Dict Key Value) (key : Key) : Int :=
  let h := hash.phash key t.maxn
  if h > t.n then h - t.bso else h

/-- Part a bucket; fails on a key that hashes to neither slot. -/
def rehash (slot1 slot2 maxn : Int) :
    Bucket Key Value → Option (Bucket Key Value × Bucket Key Value)
  | keyBag :: t => do
    let (l1, l2) ← rehash slot1 slot2 maxn t
    if hash.phash keyBag.1 maxn = slot1 then some (keyBag :: l1, l2)
    else if hash.phash keyBag.1 maxn = slot2 then some (l1, keyBag :: l2)
    else none
  | [] => some ([], [])

def maybeExpandSegs (t : Dict Key Value) : Dict Key Value :=
  if t.n = t.maxn then
    { t with maxn := 2 * t.maxn, bso := 2 * t.bso, segs := expandSegs t.segs t.empty }
  else t

def maybeExpandAux (t0 : Dict Key Value) (ic : Int) : Option (Dict Key Value) :=
  if t0.size + ic > t0.expSize then do
    let t := maybeExpandSegs t0
    let n := t.n + 1
    let slot1 := n - t.bso
    let b ← getBucketS t.segs slot1
    let slot2 := n
    let (b1, b2) ← rehash hash slot1 slot2 t.maxn b
    let segs1 ← putBucketS t.segs slot1 b1
    let segs2 ← putBucketS segs1 slot2 b2
    some { t with
      size := t.size + ic, n := n, expSize := n * expandLoad, conSize := n * contractLoad,
      segs := segs2 }
  else some { t0 with size := t0.size + ic }

def maybeExpand (t : Dict Key Value) (ic : Int) : Option (Dict Key Value) :=
  if ic = 0 ∨ ic = 1 then maybeExpandAux hash t ic else none

def maybeContractSegs (t : Dict Key Value) : Dict Key Value :=
  if t.n = t.bso then
    { t with maxn := t.maxn / 2, bso := t.bso / 2, segs := contractSegs t.segs }
  else t

def maybeContract (t : Dict Key Value) (dc : Int) : Option (Dict Key Value) :=
  if t.size - dc < t.conSize ∧ t.n > segSize then do
    let n := t.n
    let slot1 := n - t.bso
    let b1 ← getBucketS t.segs slot1
    let slot2 := n
    let b2 ← getBucketS t.segs slot2
    let segs1 ← putBucketS t.segs slot1 (b1 ++ b2)
    let segs2 ← putBucketS segs1 slot2 []
    let n1 := n - 1
    some (maybeContractSegs { t with
      size := t.size - dc, n := n1, expSize := n1 * expandLoad, conSize := n1 * contractLoad,
      segs := segs2 })
  else some { t with size := t.size - dc }

end

def foldBucket (f : Key → Value → Acc → Acc) : Acc → Bucket Key Value → Acc
  | acc, (key, val) :: bkt => foldBucket f (f key val acc) bkt
  | acc, [] => acc

def foldSeg (f : Key → Value → Acc → Acc) : Acc → Seg Key Value → Nat → Option Acc
  | acc, seg, i + 1 => do
    let bkt ← element (i + 1) seg
    foldSeg f (foldBucket f acc bkt) seg i
  | acc, _, 0 => some acc

def foldSegs (f : Key → Value → Acc → Acc) : Acc → List (Seg Key Value) → Nat → Option Acc
  | acc, segs, i + 1 => do
    let seg ← element (i + 1) segs
    let acc ← foldSeg f acc seg seg.length
    foldSegs f acc segs i
  | acc, _, 0 => some acc

def foldDict (f : Key → Value → Acc → Acc) (acc : Acc) (d : Dict Key Value) : Option Acc :=
  if d.size = 0 then some acc else foldSegs f acc d.segs d.segs.length

def mapBucket (f : Key → Value → Value) : Bucket Key Value → Bucket Key Value
  | (key, val) :: bkt => (key, f key val) :: mapBucket f bkt
  | [] => []

def mapBktList (f : Key → Value → Value) : Seg Key Value → Seg Key Value
  | bkt0 :: bkts => mapBucket f bkt0 :: mapBktList f bkts
  | [] => []

def mapSegList (f : Key → Value → Value) : List (Seg Key Value) → List (Seg Key Value)
  | seg :: segs => mapBktList f seg :: mapSegList f segs
  | [] => []

def mapDict (f : Key → Value → Value) (d : Dict Key Value) : Dict Key Value :=
  if d.size = 0 then d else { d with segs := mapSegList f d.segs }

def filterBucket (f : Key → Value → Bool) : Bucket Key Value → Bucket Key Value → Int →
    Bucket Key Value × Int
  | (key, val) :: bkt, fb, fc =>
    if f key val then filterBucket f bkt ((key, val) :: fb) fc else filterBucket f bkt fb (fc + 1)
  | [], fb, fc => (fb.reverse, fc)

def filterBktList (f : Key → Value → Bool) : Seg Key Value → Seg Key Value → Int →
    Seg Key Value × Int
  | bkt0 :: bkts, fbs, fc0 =>
    let (bkt1, fc1) := filterBucket f bkt0 [] fc0
    filterBktList f bkts (bkt1 :: fbs) fc1
  | [], fbs, fc => (fbs.reverse, fc)

def filterSegList (f : Key → Value → Bool) :
    List (Seg Key Value) → List (Seg Key Value) → Int → List (Seg Key Value) × Int
  | seg :: segs, fss, fc0 =>
    let (bkts1, fc1) := filterBktList f seg [] fc0
    filterSegList f segs (bkts1 :: fss) fc1
  | [], fss, fc => (fss.reverse, fc)

def filterDict (f : Key → Value → Bool) (d : Dict Key Value) : Option (Dict Key Value) :=
  if d.size = 0 then some d
  else
    let (segs1, fc) := filterSegList f d.segs [] 0
    maybeContract { d with segs := segs1 } fc

section

variable [DecidableEq Key]

def findVal (key : Key) : Bucket Key Value → Option Value
  | (k, val) :: bkt => if k = key then some val else findVal key bkt
  | [] => none

def findKey (key : Key) : Bucket Key Value → Bool
  | (k, _) :: bkt => if k = key then true else findKey key bkt
  | [] => false

def eraseKey (key : Key) : Bucket Key Value → Bucket Key Value × Int
  | (k, val) :: bkt =>
    if k = key then (bkt, 1)
    else
      let (bkt1, dc) := eraseKey key bkt
      ((k, val) :: bkt1, dc)
  | [] => ([], 0)

/-- The value under a key is changed; a new key gets `fresh`. -/
def putBkt (found : Value → Option Value) (fresh : Value) (key : Key) :
    Bucket Key Value → Option (Bucket Key Value × Int)
  | (k, old) :: bkt =>
    if k = key then do
      let new ← found old
      some ((k, new) :: bkt, 0)
    else do
      let (bkt1, ic) ← putBkt found fresh key bkt
      some ((k, old) :: bkt1, ic)
  | [] => some ([(key, fresh)], 1)

def storeBktVal (key : Key) (new : Value) : Bucket Key Value → Option (Bucket Key Value × Int) :=
  putBkt (fun _ => some new) new key

/-- `update_bkt/4`. -/
def updateBktInit (key : Key) (f : Value → Value) (init : Value) :
    Bucket Key Value → Option (Bucket Key Value × Int) :=
  putBkt (fun val => some (f val)) init key

/-- `update_bkt/3`, which fails on a key that is not there. -/
def updateBkt (key : Key) (f : Value → Value) : Bucket Key Value → Option (Bucket Key Value × Value)
  | (k, val) :: bkt =>
    if k = key then some ((k, f val) :: bkt, f val)
    else do
      let (bkt1, upd) ← updateBkt key f bkt
      some ((k, val) :: bkt1, upd)
  | [] => none

variable (values : Values Value)

def appendBkt (key : Key) (val : Value) : Bucket Key Value → Option (Bucket Key Value × Int) :=
  putBkt (fun bag => values.append bag (values.single val)) (values.single val) key

def appListBkt (key : Key) (l : Value) : Bucket Key Value → Option (Bucket Key Value × Int) :=
  putBkt (fun bag => values.append bag l) l key

def counterBkt (key : Key) (i : Value) : Bucket Key Value → Option (Bucket Key Value × Int) :=
  putBkt (fun val => values.add val i) i key

variable (hash : PHash Key)

def isKey (key : Key) (d : Dict Key Value) : Option Bool := do
  some (findKey key (← getBucket d (getSlot hash d key)))

/-- `find/2`, where `error` is the inner `none`. -/
def find (key : Key) (d : Dict Key Value) : Option (Option Value) := do
  some (findVal key (← getBucket d (getSlot hash d key)))

def fetch (key : Key) (d : Dict Key Value) : Option Value := do
  findVal key (← getBucket d (getSlot hash d key))

def erase (key : Key) (d0 : Dict Key Value) : Option (Dict Key Value) := do
  let (d1, dc) ← onBucket (fun b0 => some (eraseKey key b0)) d0 (getSlot hash d0 key)
  maybeContract d1 dc

/-- The part that `store`, `append`, `append_list`, `update/4` and `update_counter` have in
common. -/
def onKey (f : Bucket Key Value → Option (Bucket Key Value × Int)) (key : Key)
    (d0 : Dict Key Value) :
    Option (Dict Key Value) := do
  let (d1, ic) ← onBucket f d0 (getSlot hash d0 key)
  maybeExpand hash d1 ic

def store (key : Key) (val : Value) (d0 : Dict Key Value) : Option (Dict Key Value) :=
  onKey hash (storeBktVal key val) key d0

def append (key : Key) (val : Value) (d0 : Dict Key Value) : Option (Dict Key Value) :=
  onKey hash (appendBkt values key val) key d0

def appendList (key : Key) (l : Value) (d0 : Dict Key Value) : Option (Dict Key Value) :=
  onKey hash (appListBkt values key l) key d0

/-- `update/3`. -/
def update (key : Key) (f : Value → Value) (d0 : Dict Key Value) : Option (Dict Key Value) := do
  let (d1, _) ← onBucket (updateBkt key f) d0 (getSlot hash d0 key)
  some d1

/-- `update/4`. -/
def updateInit (key : Key) (f : Value → Value) (init : Value) (d0 : Dict Key Value) :
    Option (Dict Key Value) :=
  onKey hash (updateBktInit key f init) key d0

def updateCounter (key : Key) (incr : Value) (d0 : Dict Key Value) : Option (Dict Key Value) :=
  if values.isNumber incr then onKey hash (counterBkt values key incr) key d0 else none

def merge (f : Key → Value → Value → Value) (d1 d2 : Dict Key Value) : Option (Dict Key Value) :=
  if d1.size < d2.size then do
    ← foldDict (fun k v1 d => do updateInit hash k (fun v2 => f k v1 v2) v1 (← d)) (some d2) d1
  else do
    ← foldDict (fun k v2 d => do updateInit hash k (fun v1 => f k v1 v2) v2 (← d)) (some d1) d2

end

end Otp.Dicts
