import Mathlib.Data.List.Basic
import Otp.Library.StableOrder

/-! `lists:sort/1`, `lists:sort/2` and `lists:keysort/2` (`lists.erl`): the input
is split into runs, and the runs are merged in passes that alternate between
lists from the least and from the greatest element. `le` is `=<`, the fun, or
`=<` on the elements at a position. -/

namespace Otp.Lists

variable {Item : Type} (le : Item → Item → Bool)

mutual

def merge2_1 : List Item → Item → List Item → List Item → List Item
  | h1 :: t1, h2, t2, m => if le h1 h2 then merge2_1 t1 h2 t2 (h1 :: m) else merge2_2 t1 h2 t2 m h1
  | [], h2, t2, m => t2.reverse ++ h2 :: m
termination_by t1 _ t2 => t1.length + t2.length

def merge2_2 : List Item → Item → List Item → List Item → Item → List Item
  | t1, hdM, h2 :: t2, m, h1 =>
    if le h1 h2 then merge2_1 t1 h2 t2 (h1 :: hdM :: m) else merge2_2 t1 h2 t2 (hdM :: m) h1
  | t1, hdM, [], m, h1 => t1.reverse ++ h1 :: hdM :: m
termination_by t1 _ t2 => t1.length + t2.length

end

mutual

def rmerge2_1 : List Item → Item → List Item → List Item → List Item
  | h1 :: t1, h2, t2, m =>
    if le h1 h2 then rmerge2_2 t1 h2 t2 m h1 else rmerge2_1 t1 h2 t2 (h1 :: m)
  | [], h2, t2, m => t2.reverse ++ h2 :: m
termination_by t1 _ t2 => t1.length + t2.length

def rmerge2_2 : List Item → Item → List Item → List Item → Item → List Item
  | t1, hdM, h2 :: t2, m, h1 =>
    if le h1 h2 then rmerge2_2 t1 h2 t2 (hdM :: m) h1 else rmerge2_1 t1 h2 t2 (h1 :: hdM :: m)
  | t1, hdM, [], m, h1 => t1.reverse ++ h1 :: hdM :: m
termination_by t1 _ t2 => t1.length + t2.length

end

mutual

def fmerge2_1 : List Item → Item → List Item → List Item → List Item
  | h1 :: t1, h2, t2, m =>
    if le h1 h2 then fmerge2_1 t1 h2 t2 (h1 :: m) else fmerge2_2 h1 t1 t2 (h2 :: m)
  | [], h2, t2, m => t2.reverse ++ h2 :: m
termination_by t1 _ t2 => t1.length + t2.length

def fmerge2_2 : Item → List Item → List Item → List Item → List Item
  | h1, t1, h2 :: t2, m =>
    if le h1 h2 then fmerge2_1 t1 h2 t2 (h1 :: m) else fmerge2_2 h1 t1 t2 (h2 :: m)
  | h1, t1, [], m => t1.reverse ++ h1 :: m
termination_by _ t1 t2 => t1.length + t2.length

end

mutual

def rfmerge2_1 : List Item → Item → List Item → List Item → List Item
  | h1 :: t1, h2, t2, m =>
    if le h1 h2 then rfmerge2_2 h1 t1 t2 (h2 :: m) else rfmerge2_1 t1 h2 t2 (h1 :: m)
  | [], h2, t2, m => t2.reverse ++ h2 :: m
termination_by t1 _ t2 => t1.length + t2.length

def rfmerge2_2 : Item → List Item → List Item → List Item → List Item
  | h1, t1, h2 :: t2, m =>
    if le h1 h2 then rfmerge2_2 h1 t1 t2 (h2 :: m) else rfmerge2_1 t1 h2 t2 (h1 :: m)
  | h1, t1, [], m => t1.reverse ++ h1 :: m
termination_by _ t1 t2 => t1.length + t2.length

end

mutual

/-- Take the first list apart. -/
def merge3_1 : List Item → List Item → Item → List Item → Item → List Item → List Item
  | h1 :: t1, m, h2, t2, h3, t3 =>
    if le h1 h2 then merge3_12 t1 h1 h2 t2 h3 t3 m else merge3_21 t1 h1 h2 t2 h3 t3 m
  | [], m, h2, t2, h3, t3 =>
    if le h2 h3 then merge2_1 le t2 h3 t3 (h2 :: m) else merge2_2 le t2 h3 t3 m h2
termination_by t1 _ _ t2 _ t3 => 3 * (t1.length + t2.length + t3.length)

/-- Take the second list apart. -/
def merge3_2 : List Item → Item → List Item → List Item → Item → List Item → List Item
  | t1, h1, m, h2 :: t2, h3, t3 =>
    if le h1 h2 then merge3_12 t1 h1 h2 t2 h3 t3 m else merge3_21 t1 h1 h2 t2 h3 t3 m
  | t1, h1, m, [], h3, t3 =>
    if le h1 h3 then merge2_1 le t1 h3 t3 (h1 :: m) else merge2_2 le t1 h3 t3 m h1
termination_by t1 _ _ t2 _ t3 => 3 * (t1.length + t2.length + t3.length)

def merge3_12 (t1 : List Item) (h1 h2 : Item) (t2 : List Item) (h3 : Item) (t3 m : List Item) :
    List Item :=
  if le h1 h3 then merge3_1 t1 (h1 :: m) h2 t2 h3 t3 else merge3_12_3 t1 h1 h2 t2 (h3 :: m) t3
termination_by 3 * (t1.length + t2.length + t3.length) + 2

/-- Take the third list apart. -/
def merge3_12_3 : List Item → Item → Item → List Item → List Item → List Item → List Item
  | t1, h1, h2, t2, m, h3 :: t3 =>
    if le h1 h3 then merge3_1 t1 (h1 :: m) h2 t2 h3 t3 else merge3_12_3 t1 h1 h2 t2 (h3 :: m) t3
  | t1, h1, h2, t2, m, [] => merge2_1 le t1 h2 t2 (h1 :: m)
termination_by t1 _ _ t2 _ t3 => 3 * (t1.length + t2.length + t3.length) + 1

def merge3_21 (t1 : List Item) (h1 h2 : Item) (t2 : List Item) (h3 : Item) (t3 m : List Item) :
    List Item :=
  if le h2 h3 then merge3_2 t1 h1 (h2 :: m) t2 h3 t3 else merge3_21_3 t1 h1 h2 t2 (h3 :: m) t3
termination_by 3 * (t1.length + t2.length + t3.length) + 2

def merge3_21_3 : List Item → Item → Item → List Item → List Item → List Item → List Item
  | t1, h1, h2, t2, m, h3 :: t3 =>
    if le h2 h3 then merge3_2 t1 h1 (h2 :: m) t2 h3 t3 else merge3_21_3 t1 h1 h2 t2 (h3 :: m) t3
  | t1, h1, h2, t2, m, [] => merge2_2 le t1 h2 t2 m h1
termination_by t1 _ _ t2 _ t3 => 3 * (t1.length + t2.length + t3.length) + 1

end

mutual

def rmerge3_1 : List Item → List Item → Item → List Item → Item → List Item → List Item
  | h1 :: t1, m, h2, t2, h3, t3 =>
    if le h1 h2 then rmerge3_12 t1 h1 h2 t2 h3 t3 m else rmerge3_21 t1 h1 h2 t2 h3 t3 m
  | [], m, h2, t2, h3, t3 =>
    if le h2 h3 then rmerge2_2 le t2 h3 t3 m h2 else rmerge2_1 le t2 h3 t3 (h2 :: m)
termination_by t1 _ _ t2 _ t3 => 3 * (t1.length + t2.length + t3.length)

def rmerge3_2 : List Item → Item → List Item → List Item → Item → List Item → List Item
  | t1, h1, m, h2 :: t2, h3, t3 =>
    if le h1 h2 then rmerge3_12 t1 h1 h2 t2 h3 t3 m else rmerge3_21 t1 h1 h2 t2 h3 t3 m
  | t1, h1, m, [], h3, t3 =>
    if le h1 h3 then rmerge2_2 le t1 h3 t3 m h1 else rmerge2_1 le t1 h3 t3 (h1 :: m)
termination_by t1 _ _ t2 _ t3 => 3 * (t1.length + t2.length + t3.length)

def rmerge3_12 (t1 : List Item) (h1 h2 : Item) (t2 : List Item) (h3 : Item) (t3 m : List Item) :
    List Item :=
  if le h2 h3 then rmerge3_12_3 t1 h1 h2 t2 (h3 :: m) t3 else rmerge3_2 t1 h1 (h2 :: m) t2 h3 t3
termination_by 3 * (t1.length + t2.length + t3.length) + 2

def rmerge3_12_3 : List Item → Item → Item → List Item → List Item → List Item → List Item
  | t1, h1, h2, t2, m, h3 :: t3 =>
    if le h2 h3 then rmerge3_12_3 t1 h1 h2 t2 (h3 :: m) t3 else rmerge3_2 t1 h1 (h2 :: m) t2 h3 t3
  | t1, h1, h2, t2, m, [] => rmerge2_2 le t1 h2 t2 m h1
termination_by t1 _ _ t2 _ t3 => 3 * (t1.length + t2.length + t3.length) + 1

def rmerge3_21 (t1 : List Item) (h1 h2 : Item) (t2 : List Item) (h3 : Item) (t3 m : List Item) :
    List Item :=
  if le h1 h3 then rmerge3_21_3 t1 h1 h2 t2 (h3 :: m) t3 else rmerge3_1 t1 (h1 :: m) h2 t2 h3 t3
termination_by 3 * (t1.length + t2.length + t3.length) + 2

def rmerge3_21_3 : List Item → Item → Item → List Item → List Item → List Item → List Item
  | t1, h1, h2, t2, m, h3 :: t3 =>
    if le h1 h3 then rmerge3_21_3 t1 h1 h2 t2 (h3 :: m) t3 else rmerge3_1 t1 (h1 :: m) h2 t2 h3 t3
  | t1, h1, h2, t2, m, [] => rmerge2_1 le t1 h2 t2 (h1 :: m)
termination_by t1 _ _ t2 _ t3 => 3 * (t1.length + t2.length + t3.length) + 1

end

-- `none` where no clause of the source matches.

mutual

def mergel : List (List Item) → List (List Item) → Option (List Item)
  | [] :: l, acc => mergel l acc
  | t1 :: (h2 :: t2) :: (h3 :: t3) :: l, acc => mergel l (merge3_1 le t1 [] h2 t2 h3 t3 :: acc)
  | [t1, h2 :: t2], acc => rmergel (merge2_1 le t1 h2 t2 [] :: acc) []
  | [l], [] => some l
  | [l], a :: acc => rmergel (l.reverse :: a :: acc) []
  | [], [] => some []
  | [], a :: acc => rmergel (a :: acc) []
  | a :: [] :: l, acc => mergel (a :: l) acc
  | a :: b :: [] :: l, acc => mergel (a :: b :: l) acc
termination_by l acc => 4 * (l.length + acc.length) + 2 * min acc.length 1

def rmergel : List (List Item) → List (List Item) → Option (List Item)
  | (h3 :: t3) :: (h2 :: t2) :: t1 :: l, acc => rmergel l (rmerge3_1 le t1 [] h2 t2 h3 t3 :: acc)
  | [h2 :: t2, t1], acc => mergel (rmerge2_1 le t1 h2 t2 [] :: acc) []
  | [l], acc => mergel (l.reverse :: acc) []
  | [], acc => mergel acc []
  | _, _ => none
termination_by l acc => 4 * (l.length + acc.length) + 2 * min acc.length 1 + 1

end

/-- The order of the runs in the lists that are merged. -/
inductive RunOrder where
  | asc | desc
  deriving DecidableEq, Repr

mutual

/-- With no list at all the source would not return. -/
def fmergel : List (List Item) → List (List Item) → RunOrder → Option (List Item)
  | t1 :: (h2 :: t2) :: l, acc, .asc => fmergel l (fmerge2_1 le t1 h2 t2 [] :: acc) .asc
  | (h2 :: t2) :: t1 :: l, acc, .desc => fmergel l (fmerge2_1 le t1 h2 t2 [] :: acc) .desc
  | [l], [], _ => some l
  | [l], a :: acc, o => rfmergel (l.reverse :: a :: acc) [] o
  | [], [], _ => none
  | [], a :: acc, o => rfmergel (a :: acc) [] o
  | _, _, _ => none
termination_by l acc => 4 * (l.length + acc.length) + 2 * min acc.length 1

def rfmergel : List (List Item) → List (List Item) → RunOrder → Option (List Item)
  | (h2 :: t2) :: t1 :: l, acc, .asc => rfmergel l (rfmerge2_1 le t1 h2 t2 [] :: acc) .asc
  | t1 :: (h2 :: t2) :: l, acc, .desc => rfmergel l (rfmerge2_1 le t1 h2 t2 [] :: acc) .desc
  | [l], acc, o => fmergel (l.reverse :: acc) [] o
  | [], acc, o => fmergel acc [] o
  | _, _, _ => none
termination_by l acc => 4 * (l.length + acc.length) + 2 * min acc.length 1 + 1

end

-- The merges of `keysort/2`: `le` compares the elements at the position, which the source
-- passes along with their tuples.

abbrev keymerge2_1 := merge2_1 le

abbrev keymerge2_2 := merge2_2 le

abbrev keymerge3_1 := merge3_1 le

abbrev keymerge3_2 := merge3_2 le

abbrev keymerge3_12 := merge3_12 le

abbrev keymerge3_12_3 := merge3_12_3 le

abbrev keymerge3_21 := merge3_21 le

abbrev keymerge3_21_3 := merge3_21_3 le

abbrev rkeymerge2_1 := rmerge2_1 le

abbrev rkeymerge2_2 := rmerge2_2 le

abbrev rkeymerge3_1 := rmerge3_1 le

abbrev rkeymerge3_2 := rmerge3_2 le

abbrev rkeymerge3_12 := rmerge3_12 le

abbrev rkeymerge3_12_3 := rmerge3_12_3 le

abbrev rkeymerge3_21 := rmerge3_21 le

abbrev rkeymerge3_21_3 := rmerge3_21_3 le

mutual

def keymergel : List (List Item) → List (List Item) → RunOrder → Option (List Item)
  | t1 :: (h2 :: t2) :: (h3 :: t3) :: l, acc, .asc =>
    keymergel l (keymerge3_1 le t1 [] h2 t2 h3 t3 :: acc) .asc
  | (h3 :: t3) :: (h2 :: t2) :: t1 :: l, acc, .desc =>
    keymergel l (keymerge3_1 le t1 [] h2 t2 h3 t3 :: acc) .desc
  | t1 :: (h2 :: t2) :: l, acc, .asc => keymergel l (keymerge2_1 le t1 h2 t2 [] :: acc) .asc
  | (h2 :: t2) :: t1 :: l, acc, .desc => keymergel l (keymerge2_1 le t1 h2 t2 [] :: acc) .desc
  | [l], [], _ => some l
  | [l], a :: acc, o => rkeymergel (l.reverse :: a :: acc) [] o
  | [], [], _ => none
  | [], a :: acc, o => rkeymergel (a :: acc) [] o
  | _, _, _ => none
termination_by l acc => 4 * (l.length + acc.length) + 2 * min acc.length 1

def rkeymergel : List (List Item) → List (List Item) → RunOrder → Option (List Item)
  | (h3 :: t3) :: (h2 :: t2) :: t1 :: l, acc, .asc =>
    rkeymergel l (rkeymerge3_1 le t1 [] h2 t2 h3 t3 :: acc) .asc
  | t1 :: (h2 :: t2) :: (h3 :: t3) :: l, acc, .desc =>
    rkeymergel l (rkeymerge3_1 le t1 [] h2 t2 h3 t3 :: acc) .desc
  | (h2 :: t2) :: t1 :: l, acc, .asc => rkeymergel l (rkeymerge2_1 le t1 h2 t2 [] :: acc) .asc
  | t1 :: (h2 :: t2) :: l, acc, .desc => rkeymergel l (rkeymerge2_1 le t1 h2 t2 [] :: acc) .desc
  | [l], acc, o => keymergel (l.reverse :: acc) [] o
  | [], acc, o => keymergel acc [] o
  | _, _, _ => none
termination_by l acc => 4 * (l.length + acc.length) + 2 * min acc.length 1 + 1

end

section

variable {Result : Type} (finish : List (List Item) → Result)

mutual

/-- `split_1`, `fsplit_1` and `keysplit_1`: `y`, `x` and `r` are the run so far from
its end on. An element below `x` goes under the run once, while nothing is there. -/
def splitUp : Item → Item → List Item → List Item → List (List Item) → Result
  | x, y, z :: l, r, rs =>
    if le y z then splitUp y z l (x :: r) rs
    else if le x z then splitUp z y l (x :: r) rs
    else match r with
      | [] => splitUp x y l [z] rs
      | r => splitUpStash x y l r rs z
  | x, y, [], r, rs => finish ((y :: x :: r) :: rs)

/-- The same with an element `s` beside the run, which begins the next one. -/
def splitUpStash : Item → Item → List Item → List Item → List (List Item) → Item → Result
  | x, y, z :: l, r, rs, s =>
    if le y z then splitUpStash y z l (x :: r) rs s
    else if le x z then splitUpStash z y l (x :: r) rs s
    else if le s z then splitUp s z l [] ((y :: x :: r) :: rs)
    else splitUp z s l [] ((y :: x :: r) :: rs)
  | x, y, [], r, rs, s => finish ([s] :: (y :: x :: r) :: rs)

end

variable (down : Item → Item → Bool)

mutual

/-- `split_2`, `fsplit_2` and `keysplit_2`. `down y z` tells whether `z` goes below `y`:
`z =< y` in the first, `y > z` in the others. -/
def splitDown : Item → Item → List Item → List Item → List (List Item) → Result
  | x, y, z :: l, r, rs =>
    if down y z then splitDown y z l (x :: r) rs
    else if down x z then splitDown z y l (x :: r) rs
    else match r with
      | [] => splitDown x y l [z] rs
      | r => splitDownStash x y l r rs z
  | x, y, [], r, rs => finish ((y :: x :: r) :: rs)

def splitDownStash : Item → Item → List Item → List Item → List (List Item) → Item → Result
  | x, y, z :: l, r, rs, s =>
    if down y z then splitDownStash y z l (x :: r) rs s
    else if down x z then splitDownStash z y l (x :: r) rs s
    else if le s z = false then splitDown s z l [] ((y :: x :: r) :: rs)
    else splitDown z s l [] ((y :: x :: r) :: rs)
  | x, y, [], r, rs, s => finish ([s] :: (y :: x :: r) :: rs)

end

end

def split_1 (x y : Item) (l r : List Item) (rs : List (List Item)) : Option (List Item) :=
  splitUp le (fun rs => rmergel le rs []) x y l r rs

def split_2 (x y : Item) (l r : List Item) (rs : List (List Item)) : Option (List Item) :=
  splitDown le (fun rs => mergel le rs []) (fun y z => le z y) x y l r rs

/-- Past leading elements that are all `==`. -/
def sort_1 : Item → List Item → List Item → Option (List Item)
  | x, y :: l, r =>
    if le x y && le y x then sort_1 y l (x :: r)
    else if le y x = false then split_1 le x y l r []
    else split_2 le x y l r []
  | x, [], r => some (r.reverse ++ [x])

def sort : List Item → Option (List Item)
  | x :: y :: l =>
    if le x y then
      match l with
      | [] => some [x, y]
      | [z] =>
        if le y z then some [x, y, z] else if le x z then some [x, z, y] else some [z, x, y]
      | l => if le x y && le y x then sort_1 le y l [x] else split_1 le x y l [] []
    else
      match l with
      | [] => some [y, x]
      | [z] =>
        if le x z then some [y, x, z] else if le y z then some [y, z, x] else some [z, y, x]
      | l => split_2 le x y l [] []
  | [x] => some [x]
  | [] => some []

def fsplit_1 (y x : Item) (l r : List Item) (rs : List (List Item)) : Option (List Item) :=
  splitUp le (fun rs => rfmergel le rs [] .asc) x y l r rs

def fsplit_2 (y x : Item) (l r : List Item) (rs : List (List Item)) : Option (List Item) :=
  splitDown le (fun rs => fmergel le rs [] .desc) (fun y z => !le y z) x y l r rs

/-- `sort/2`, where `le` is the fun. -/
def sortFun : List Item → Option (List Item)
  | [] => some []
  | [x] => some [x]
  | x :: y :: t => if le x y then fsplit_1 le y x t [] [] else fsplit_2 le y x t [] []

section

variable {Term : Type} {i : Nat}

/-- A tuple with an element at the position `N = i + 1`. -/
abbrev Tuple (Term : Type) (i : Nat) := { elements : List Term // i < elements.length }

def element (x : Tuple Term i) : Term := x.1.get ⟨i, x.2⟩

/-- `==` on tuples. -/
def eqTuple (le : Term → Term → Bool) (x y : Tuple Term i) : Bool :=
  x.1.length == y.1.length && (x.1.zip y.1).all fun (first, second) =>
    le first second && le second first

/-- A tuple with the element that is passed along with it. -/
def keyed (x : Tuple Term i) : Term × Tuple Term i := (element x, x)

variable (le : Term → Term → Bool)

def keyLe (x y : Term × Tuple Term i) : Bool := le x.1 y.1

def elementLe (x y : Tuple Term i) : Bool := le (element x) (element y)

def keysplit_1 (x y : Term × Tuple Term i) (l r : List (Tuple Term i)) :
    Option (List (Tuple Term i)) :=
  splitUp (keyLe le) (fun rs => rkeymergel (elementLe le) (rs.map fun run => run.map Prod.snd)
    [] .asc)
    x y (l.map keyed) (r.map keyed) []

def keysplit_2 (x y : Term × Tuple Term i) (l r : List (Tuple Term i)) :
    Option (List (Tuple Term i)) :=
  splitDown (keyLe le) (fun rs => keymergel (elementLe le) (rs.map fun run => run.map Prod.snd)
    [] .desc)
    (fun y z => !keyLe le y z) x y (l.map keyed) (r.map keyed) []

/-- Past leading tuples that are all `==`; the element stays that of the second. -/
def keysort_1 : Term → Tuple Term i → List (Tuple Term i) → List (Tuple Term i) →
    Option (List (Tuple Term i))
  | ex, x, y :: l, r =>
    if eqTuple le x y then keysort_1 ex y l (x :: r)
    else if le ex (element y) then keysplit_1 le (ex, x) (keyed y) l r
    else keysplit_2 le (ex, x) (keyed y) l r
  | _, x, [], r => some (r.reverse ++ [x])

def keysort : List (Tuple Term i) → Option (List (Tuple Term i))
  | [] => some []
  | [x] => some [x]
  | x :: y :: t =>
    if elementLe le x y then
      match t with
      | [] => some [x, y]
      | [z] =>
        if elementLe le y z then some [x, y, z]
        else if elementLe le x z then some [x, z, y] else some [z, x, y]
      | t => if eqTuple le x y then keysort_1 le (element y) y t [x]
        else keysplit_1 le (keyed x) (keyed y) t []
    else
      match t with
      | [] => some [y, x]
      | [z] =>
        if elementLe le x z then some [y, x, z]
        else if elementLe le y z then some [y, z, x] else some [z, y, x]
      | t => keysplit_2 le (keyed x) (keyed y) t []

end

end Otp.Lists
