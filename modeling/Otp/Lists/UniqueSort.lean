import Otp.Lists.Sort

/-! `lists:usort/1`, `lists:ukeysort/2` and `lists:usort/2` (`lists.erl`): the input is split
into runs and the runs are merged, and an element is left out where it compares equal to one
that was met before. `le` is `=<`, `=<` on the elements at a position, or the fun; the key
functions pass the elements at the position along with the tuples. -/

namespace Otp.Lists

variable {Item : Type} (le : Item → Item → Bool)

/-- `==` -/
abbrev equal (x y : Item) : Bool := le x y && le y x

/-- `H == HdM` for the last element that was moved. At first `HdM` is `[H2 | H3]`, which
neither of the two compares equal to. -/
def equalHd (h : Item) : Option Item → Bool
  | none => false
  | some hdM => equal le h hdM

mutual

def umerge2_1 : List Item → List Item → List Item → Option Item → Item → List Item
  | h1 :: t1, t2, m, hdM, h2 =>
    if le h1 h2 then umerge2_1 t1 t2 (h1 :: m) (some h1) h2
    else if equalHd le h2 hdM then umerge2_2 t1 t2 m h1
    else umerge2_2 t1 t2 (h2 :: m) h1
  | [], t2, m, hdM, h2 => if equalHd le h2 hdM then t2.reverse ++ m else t2.reverse ++ h2 :: m
termination_by t1 t2 => t1.length + t2.length

def umerge2_2 : List Item → List Item → List Item → Item → List Item
  | t1, h2 :: t2, m, h1 =>
    if le h1 h2 then umerge2_1 t1 t2 (h1 :: m) (some h1) h2 else umerge2_2 t1 t2 (h2 :: m) h1
  | t1, [], m, h1 => t1.reverse ++ h1 :: m
termination_by t1 t2 => t1.length + t2.length

end

mutual

def rumerge2_1 : List Item → List Item → List Item → Item → List Item
  | h1 :: t1, t2, m, h2 =>
    if le h1 h2 then rumerge2_2 t1 t2 m h2 h1 else rumerge2_1 t1 t2 (h1 :: m) h2
  | [], t2, m, h2 => t2.reverse ++ h2 :: m
termination_by t1 t2 => t1.length + t2.length

def rumerge2_2 : List Item → List Item → List Item → Item → Item → List Item
  | t1, h2 :: t2, m, h2M, h1 =>
    if le h1 h2 then rumerge2_2 t1 t2 (h2M :: m) h2 h1
    else if equal le h1 h2M then rumerge2_1 t1 t2 (h1 :: m) h2
    else rumerge2_1 t1 t2 (h1 :: h2M :: m) h2
  | t1, [], m, h2M, h1 =>
    if equal le h1 h2M then t1.reverse ++ h1 :: m else t1.reverse ++ h1 :: h2M :: m
termination_by t1 t2 => t1.length + t2.length

end

mutual

def ufmerge2_1 : List Item → Item → List Item → List Item → Item → List Item
  | h1 :: t1, h2, t2, m, hdM =>
    if le h1 h2 then ufmerge2_1 t1 h2 t2 (h1 :: m) h1
    else if le h2 hdM then ufmerge2_2 h1 t1 t2 m
    else ufmerge2_2 h1 t1 t2 (h2 :: m)
  | [], h2, t2, m, hdM => if le h2 hdM then t2.reverse ++ m else t2.reverse ++ h2 :: m
termination_by t1 _ t2 => t1.length + t2.length

def ufmerge2_2 : Item → List Item → List Item → List Item → List Item
  | h1, t1, h2 :: t2, m =>
    if le h1 h2 then ufmerge2_1 t1 h2 t2 (h1 :: m) h1 else ufmerge2_2 h1 t1 t2 (h2 :: m)
  | h1, t1, [], m => t1.reverse ++ h1 :: m
termination_by _ t1 t2 => t1.length + t2.length

end

mutual

def rufmerge2_1 : List Item → Item → List Item → List Item → List Item
  | h1 :: t1, h2, t2, m =>
    if le h1 h2 then rufmerge2_2 h1 t1 t2 m h2 else rufmerge2_1 t1 h2 t2 (h1 :: m)
  | [], h2, t2, m => t2.reverse ++ h2 :: m
termination_by t1 _ t2 => t1.length + t2.length

def rufmerge2_2 : Item → List Item → List Item → List Item → Item → List Item
  | h1, t1, h2 :: t2, m, h2M =>
    if le h1 h2 then rufmerge2_2 h1 t1 t2 (h2M :: m) h2
    else if le h2M h1 then rufmerge2_1 t1 h2 t2 (h1 :: m)
    else rufmerge2_1 t1 h2 t2 (h1 :: h2M :: m)
  | h1, t1, [], m, h2M => if le h2M h1 then t1.reverse ++ h1 :: m else t1.reverse ++ h1 :: h2M :: m
termination_by _ t1 t2 => t1.length + t2.length

end

section

-- What stands for the last element moved after `H2 == HdM`: `H2` in `umerge3_1`, `HdM` in
-- `ukeymerge3_1`.
variable (passed : Option Item → Item → Option Item)

mutual

/-- Take the first list apart. -/
def umerge3_1 : List Item → Option Item → List Item → Item → List Item → List Item →
    Item → List Item
  | h1 :: t1, hdM, t2, h2, m, t3, h3 =>
    if le h1 h2 then umerge3_12 t1 h1 t2 h2 m t3 h3 hdM
    else if equalHd le h2 hdM then umerge3_2 t1 h1 t2 (passed hdM h2) m t3 h3
    else umerge3_21 t1 h1 t2 h2 m t3 h3 hdM
  | [], hdM, t2, h2, m, t3, h3 =>
    if equalHd le h2 hdM then umerge2_1 le t2 t3 m hdM h3
    else if le h2 h3 then umerge2_1 le t2 t3 (h2 :: m) (some h2) h3
    else if equalHd le h3 hdM then umerge2_2 le t2 t3 m h2
    else umerge2_2 le t2 t3 (h3 :: m) h2
termination_by t1 _ t2 _ _ t3 => 3 * (t1.length + t2.length + t3.length)

/-- Take the second list apart. -/
def umerge3_2 : List Item → Item → List Item → Option Item → List Item → List Item →
    Item → List Item
  | t1, h1, h2 :: t2, hdM, m, t3, h3 =>
    if le h1 h2 then umerge3_12 t1 h1 t2 h2 m t3 h3 hdM else umerge3_21 t1 h1 t2 h2 m t3 h3 hdM
  | t1, h1, [], hdM, m, t3, h3 =>
    if le h1 h3 then umerge2_1 le t1 t3 (h1 :: m) (some h1) h3
    else if equalHd le h3 hdM then umerge2_2 le t1 t3 m h1
    else umerge2_2 le t1 t3 (h3 :: m) h1
termination_by t1 _ t2 _ _ t3 => 3 * (t1.length + t2.length + t3.length)

def umerge3_12 (t1 : List Item) (h1 : Item) (t2 : List Item) (h2 : Item)
    (m t3 : List Item) (h3 : Item) (hdM : Option Item) : List Item :=
  if le h1 h3 then umerge3_1 t1 (some h1) t2 h2 (h1 :: m) t3 h3
  else if equalHd le h3 hdM then umerge3_12_3 t1 h1 t2 h2 m t3
  else umerge3_12_3 t1 h1 t2 h2 (h3 :: m) t3
termination_by 3 * (t1.length + t2.length + t3.length) + 2

/-- Take the third list apart. -/
def umerge3_12_3 : List Item → Item → List Item → Item → List Item → List Item → List Item
  | t1, h1, t2, h2, m, h3 :: t3 =>
    if le h1 h3 then umerge3_1 t1 (some h1) t2 h2 (h1 :: m) t3 h3
    else umerge3_12_3 t1 h1 t2 h2 (h3 :: m) t3
  | t1, h1, t2, h2, m, [] => umerge2_1 le t1 t2 (h1 :: m) (some h1) h2
termination_by t1 _ t2 _ _ t3 => 3 * (t1.length + t2.length + t3.length) + 1

def umerge3_21 (t1 : List Item) (h1 : Item) (t2 : List Item) (h2 : Item)
    (m t3 : List Item) (h3 : Item) (hdM : Option Item) : List Item :=
  if le h2 h3 then umerge3_2 t1 h1 t2 (some h2) (h2 :: m) t3 h3
  else if equalHd le h3 hdM then umerge3_21_3 t1 h1 t2 h2 m t3
  else umerge3_21_3 t1 h1 t2 h2 (h3 :: m) t3
termination_by 3 * (t1.length + t2.length + t3.length) + 2

def umerge3_21_3 : List Item → Item → List Item → Item → List Item → List Item → List Item
  | t1, h1, t2, h2, m, h3 :: t3 =>
    if le h2 h3 then umerge3_2 t1 h1 t2 (some h2) (h2 :: m) t3 h3
    else umerge3_21_3 t1 h1 t2 h2 (h3 :: m) t3
  | t1, h1, t2, h2, m, [] => umerge2_2 le t1 t2 (h2 :: m) h1
termination_by t1 _ t2 _ _ t3 => 3 * (t1.length + t2.length + t3.length) + 1

end

end

mutual

/-- Take the first list apart. -/
def rumerge3_1 : List Item → List Item → Item → List Item → List Item → Item → List Item
  | h1 :: t1, t2, h2, m, t3, h3 =>
    if le h1 h2 then rumerge3_12a t1 h1 t2 h2 m t3 h3
    else if le h1 h3 then rumerge3_21_3 t1 t2 h2 m t3 h3 h1
    else rumerge3_1 t1 t2 h2 (h1 :: m) t3 h3
  | [], t2, h2, m, t3, h3 =>
    if le h2 h3 then rumerge2_2 le t2 t3 m h3 h2 else rumerge2_1 le t2 t3 (h2 :: m) h3
termination_by t1 t2 _ _ t3 => 3 * (t1.length + t2.length + t3.length)

def rumerge3_12a (t1 : List Item) (h1 : Item) (t2 : List Item) (h2 : Item) (m t3 : List Item)
    (h3 : Item) : List Item :=
  if le h2 h3 then rumerge3_12_3 t1 t2 h2 m t3 h3 h1 else rumerge3_2 t1 t2 h2 m t3 h3 h1
termination_by 3 * (t1.length + t2.length + t3.length) + 2

/-- Take the second list apart. -/
def rumerge3_2 : List Item → List Item → Item → List Item → List Item → Item → Item → List Item
  | t1, h2 :: t2, h2M, m, t3, h3, h1 =>
    if le h1 h2 then rumerge3_12b t1 h1 t2 h2 m t3 h3 h2M
    else if equal le h1 h2M then rumerge3_1 t1 t2 h2 (h1 :: m) t3 h3
    else if le h1 h3 then rumerge3_21_3 t1 t2 h2 (h2M :: m) t3 h3 h1
    else rumerge3_1 t1 t2 h2 (h1 :: h2M :: m) t3 h3
  | t1, [], h2M, m, t3, h3, h1 =>
    if equal le h1 h2M then rumerge2_1 le t1 t3 (h1 :: m) h3
    else if le h1 h3 then rumerge2_2 le t1 t3 (h2M :: m) h3 h1
    else rumerge2_1 le t1 t3 (h1 :: h2M :: m) h3
termination_by t1 t2 _ _ t3 => 3 * (t1.length + t2.length + t3.length)

def rumerge3_12b (t1 : List Item) (h1 : Item) (t2 : List Item) (h2 : Item) (m t3 : List Item)
    (h3 h2M : Item) :
    List Item :=
  if le h2 h3 then rumerge3_12_3 t1 t2 h2 (h2M :: m) t3 h3 h1
  else rumerge3_2 t1 t2 h2 (h2M :: m) t3 h3 h1
termination_by 3 * (t1.length + t2.length + t3.length) + 2

/-- Take the third list apart. -/
def rumerge3_12_3 : List Item → List Item → Item → List Item → List Item → Item → Item → List Item
  | t1, t2, h2, m, h3 :: t3, h3M, h1 =>
    if le h2 h3 then rumerge3_12_3 t1 t2 h2 (h3M :: m) t3 h3 h1
    else if equal le h2 h3M then rumerge3_2 t1 t2 h2 m t3 h3 h1
    else rumerge3_2 t1 t2 h2 (h3M :: m) t3 h3 h1
  | t1, t2, h2, m, [], h3M, h1 =>
    if equal le h2 h3M then rumerge2_2 le t1 t2 m h2 h1 else rumerge2_2 le t1 t2 (h3M :: m) h2 h1
termination_by t1 t2 _ _ t3 => 3 * (t1.length + t2.length + t3.length) + 1

def rumerge3_21_3 : List Item → List Item → Item → List Item → List Item → Item → Item → List Item
  | t1, t2, h2, m, h3 :: t3, h3M, h1 =>
    if le h1 h3 then rumerge3_21_3 t1 t2 h2 (h3M :: m) t3 h3 h1
    else if equal le h1 h3M then rumerge3_1 t1 t2 h2 (h1 :: m) t3 h3
    else rumerge3_1 t1 t2 h2 (h1 :: h3M :: m) t3 h3
  | t1, t2, h2, m, [], h3M, h1 =>
    if equal le h1 h3M then rumerge2_1 le t1 t2 (h1 :: m) h2
    else rumerge2_1 le t1 t2 (h1 :: h3M :: m) h2
termination_by t1 t2 _ _ t3 => 3 * (t1.length + t2.length + t3.length) + 1

end

-- `none` where no clause of the source matches.

mutual

def umergel : List (List Item) → List (List Item) → RunOrder → Option (List Item)
  | [] :: l, acc, o => umergel l acc o
  | t1 :: (h2 :: t2) :: (h3 :: t3) :: l, acc, .asc =>
    umergel l (umerge3_1 le (fun _ => some) t1 none t2 h2 [] t3 h3 :: acc) .asc
  | (h3 :: t3) :: (h2 :: t2) :: t1 :: l, acc, .desc =>
    umergel l (umerge3_1 le (fun _ => some) t1 none t2 h2 [] t3 h3 :: acc) .desc
  | a :: [] :: l, acc, o => umergel (a :: l) acc o
  | a :: b :: [] :: l, acc, o => umergel (a :: b :: l) acc o
  | (h1 :: t1) :: t2 :: l, acc, .asc => umergel l (umerge2_2 le t1 t2 [] h1 :: acc) .asc
  | t2 :: (h1 :: t1) :: l, acc, .desc => umergel l (umerge2_2 le t1 t2 [] h1 :: acc) .desc
  | [l], [], _ => some l
  | [l], a :: acc, o => rumergel (l.reverse :: a :: acc) [] o
  | [], [], _ => some []
  | [], a :: acc, o => rumergel (a :: acc) [] o
termination_by l acc => 4 * (l.length + acc.length) + 2 * min acc.length 1

def rumergel : List (List Item) → List (List Item) → RunOrder → Option (List Item)
  | (h3 :: t3) :: (h2 :: t2) :: t1 :: l, acc, .asc =>
    rumergel l (rumerge3_1 le t1 t2 h2 [] t3 h3 :: acc) .asc
  | t1 :: (h2 :: t2) :: (h3 :: t3) :: l, acc, .desc =>
    rumergel l (rumerge3_1 le t1 t2 h2 [] t3 h3 :: acc) .desc
  | (h2 :: t2) :: t1 :: l, acc, .asc => rumergel l (rumerge2_1 le t1 t2 [] h2 :: acc) .asc
  | t1 :: (h2 :: t2) :: l, acc, .desc => rumergel l (rumerge2_1 le t1 t2 [] h2 :: acc) .desc
  | [l], acc, o => umergel (l.reverse :: acc) [] o
  | [], acc, o => umergel acc [] o
  | _, _, _ => none
termination_by l acc => 4 * (l.length + acc.length) + 2 * min acc.length 1 + 1

end

-- The merges of `ukeysort/2`.

abbrev ukeymerge2_1 := umerge2_1 le

abbrev ukeymerge2_2 := umerge2_2 le

abbrev ukeymerge3_1 := umerge3_1 le fun hdM _ => hdM

abbrev ukeymerge3_2 := umerge3_2 le fun hdM _ => hdM

abbrev ukeymerge3_12 := umerge3_12 le fun hdM _ => hdM

abbrev ukeymerge3_12_3 := umerge3_12_3 le fun hdM _ => hdM

abbrev ukeymerge3_21 := umerge3_21 le fun hdM _ => hdM

abbrev ukeymerge3_21_3 := umerge3_21_3 le fun hdM _ => hdM

abbrev rukeymerge2_1 := rumerge2_1 le

abbrev rukeymerge2_2 := rumerge2_2 le

abbrev rukeymerge3_1 := rumerge3_1 le

abbrev rukeymerge3_2 := rumerge3_2 le

abbrev rukeymerge3_12a := rumerge3_12a le

abbrev rukeymerge3_12b := rumerge3_12b le

abbrev rukeymerge3_12_3 := rumerge3_12_3 le

abbrev rukeymerge3_21_3 := rumerge3_21_3 le

def rukeymerge3_21a (t1 : List Item) (h1 : Item) (t2 : List Item) (h2 : Item) (m t3 : List Item)
    (h3 : Item) : List Item :=
  if le h1 h3 then rukeymerge3_21_3 le t1 t2 h2 m t3 h3 h1
  else rukeymerge3_1 le t1 t2 h2 (h1 :: m) t3 h3

/-- `H2M` goes to the merged elements first. -/
def rukeymerge3_21b (t1 : List Item) (h1 : Item) (t2 : List Item) (h2 : Item) (m t3 : List Item)
    (h3 h2M : Item) : List Item :=
  rukeymerge3_21a le t1 h1 t2 h2 (h2M :: m) t3 h3

-- `rumerge3_1` and `rumerge3_2` have the two written out.

theorem rukeymerge3_1_cons (h1 h2 h3 : Item) (t1 t2 m t3 : List Item) :
    rukeymerge3_1 le (h1 :: t1) t2 h2 m t3 h3 =
      if le h1 h2 then rukeymerge3_12a le t1 h1 t2 h2 m t3 h3
      else rukeymerge3_21a le t1 h1 t2 h2 m t3 h3 := by
  rw [rukeymerge3_1, rumerge3_1, rukeymerge3_21a]

theorem rukeymerge3_2_cons (h1 h2 h2M h3 : Item) (t1 t2 m t3 : List Item) :
    rukeymerge3_2 le t1 (h2 :: t2) h2M m t3 h3 h1 =
      if le h1 h2 then rukeymerge3_12b le t1 h1 t2 h2 m t3 h3 h2M
      else if equal le h1 h2M then rukeymerge3_1 le t1 t2 h2 (h1 :: m) t3 h3
      else rukeymerge3_21b le t1 h1 t2 h2 m t3 h3 h2M := by
  rw [rukeymerge3_2, rumerge3_2, rukeymerge3_21b, rukeymerge3_21a]

mutual

/-- With no list at all the source would not return. -/
def ukeymergel : List (List Item) → List (List Item) → Option (List Item)
  | t1 :: (h2 :: t2) :: (h3 :: t3) :: l, acc =>
    ukeymergel l (ukeymerge3_1 le t1 none t2 h2 [] t3 h3 :: acc)
  | (h1 :: t1) :: t2 :: l, acc => ukeymergel l (ukeymerge2_2 le t1 t2 [] h1 :: acc)
  | [l], [] => some l
  | [l], a :: acc => rukeymergel (l.reverse :: a :: acc) []
  | [], [] => none
  | [], a :: acc => rukeymergel (a :: acc) []
  | _, _ => none
termination_by l acc => 4 * (l.length + acc.length) + 2 * min acc.length 1

def rukeymergel : List (List Item) → List (List Item) → Option (List Item)
  | (h3 :: t3) :: (h2 :: t2) :: t1 :: l, acc =>
    rukeymergel l (rukeymerge3_1 le t1 t2 h2 [] t3 h3 :: acc)
  | (h2 :: t2) :: t1 :: l, acc => rukeymergel l (rukeymerge2_1 le t1 t2 [] h2 :: acc)
  | [l], acc => ukeymergel (l.reverse :: acc) []
  | [], acc => ukeymergel acc []
  | _, _ => none
termination_by l acc => 4 * (l.length + acc.length) + 2 * min acc.length 1 + 1

end

mutual

def ufmergel : List (List Item) → List (List Item) → Option (List Item)
  | (h1 :: t1) :: t2 :: l, acc => ufmergel l (ufmerge2_2 le h1 t1 t2 [] :: acc)
  | [l], [] => some l
  | [l], a :: acc => rufmergel (l.reverse :: a :: acc) []
  | [], [] => none
  | [], a :: acc => rufmergel (a :: acc) []
  | _, _ => none
termination_by l acc => 4 * (l.length + acc.length) + 2 * min acc.length 1

def rufmergel : List (List Item) → List (List Item) → Option (List Item)
  | (h2 :: t2) :: t1 :: l, acc => rufmergel l (rufmerge2_1 le t1 h2 t2 [] :: acc)
  | [l], acc => ufmergel (l.reverse :: acc) []
  | [], acc => ufmergel acc []
  | _, _ => none
termination_by l acc => 4 * (l.length + acc.length) + 2 * min acc.length 1 + 1

end

section

variable {Result : Type} (compare : Item → Item → Ordering) (finish : List (List Item) → Result)

mutual

/-- `usplit_1`, `ukeysplit_1` and `ufsplit_1`, and `usplit_2` with the comparison turned:
`y`, `x` and `r` are the run so far from its end on. -/
def usplit : Item → Item → List Item → List Item → List (List Item) → Result
  | x, y, z :: l, r, rs =>
    match compare z y with
    | .gt => usplit y z l (x :: r) rs
    | .eq => usplit x y l r rs
    | .lt =>
      match compare z x with
      | .gt => usplit z y l (x :: r) rs
      | .eq => usplit x y l r rs
      | .lt =>
        match r with
        | [] => usplit x y l [z] rs
        | r => usplitStash x y l r rs z
  | x, y, [], r, rs => finish ((y :: x :: r) :: rs)

/-- The same with an element `s` beside the run, which begins the next one. -/
def usplitStash : Item → Item → List Item → List Item → List (List Item) → Item → Result
  | x, y, z :: l, r, rs, s =>
    match compare z y with
    | .gt => usplitStash y z l (x :: r) rs s
    | .eq => usplitStash x y l r rs s
    | .lt =>
      match compare z x with
      | .gt => usplitStash z y l (x :: r) rs s
      | .eq => usplitStash x y l r rs s
      | .lt =>
        match compare z s with
        | .gt => usplit s z l [] ((y :: x :: r) :: rs)
        | .eq => usplitStash x y l r rs s
        | .lt => usplit z s l [] ((y :: x :: r) :: rs)
  | x, y, [], r, rs, s => finish ([s] :: (y :: x :: r) :: rs)

end

/-- `ukeysplit_2` and `ufsplit_2`: down from the first element, and then up. -/
def usplitDown (finish : List (List Item) → Option (List Item)) :
    Item → List Item → List Item → Option (List Item)
  | y, z :: l, r =>
    match compare z y with
    | .eq => usplitDown finish y l r
    | .gt => usplit compare finish y z l [] [r.reverse]
    | .lt => usplitDown finish z l (y :: r)
  | y, [], r => some (y :: r)

end

/-- The guards of `usplit_1`: `Z > Y`, then `Z == Y`. -/
def compareUp (z y : Item) : Ordering :=
  if le z y = false then .gt else if equal le z y then .eq else .lt

/-- The guards of `usplit_2`: `Z < Y`, then `Z == Y`. -/
def compareDown (z y : Item) : Ordering :=
  if le y z = false then .gt else if equal le z y then .eq else .lt

def usplit_1 (x y : Item) (l r : List Item) (rs : List (List Item)) : Option (List Item) :=
  usplit (compareUp le) (fun rs => rumergel le rs [] .asc) x y l r rs

def usplit_2 (x y : Item) (l r : List Item) (rs : List (List Item)) : Option (List Item) :=
  usplit (compareDown le) (fun rs => umergel le rs [] .desc) x y l r rs

def usort_1 : Item → List Item → Option (List Item)
  | x, y :: l =>
    if equal le x y then usort_1 x l
    else if le y x = false then usplit_1 le x y l [] []
    else usplit_2 le x y l [] []
  | x, [] => some [x]

def usort : List Item → Option (List Item)
  | x :: y :: l =>
    if le y x = false then
      match l with
      | [] => some [x, y]
      | [z] =>
        if le z y = false then some [x, y, z]
        else if equal le y z then some [x, y]
        else if le x z = false then some [z, x, y]
        else if equal le z x then some [x, y]
        else some [x, z, y]
      | l => usplit_1 le x y l [] []
    else if le x y = false then
      match l with
      | [] => some [y, x]
      | [z] =>
        if le z x = false then some [y, x, z]
        else if equal le x z then some [y, x]
        else if le y z = false then some [z, y, x]
        else if equal le z y then some [y, x]
        else some [y, z, x]
      | l => usplit_2 le x y l [] []
    else usort_1 le x l
  | [x] => some [x]
  | [] => some []

/-- The guards of `ukeysplit_1`: `EY == EZ`, then `EY < EZ`. -/
def compareKey (z y : Item) : Ordering :=
  if equal le y z then .eq else if le z y = false then .gt else .lt

def ukeysplit_1 (x y : Item) (l r : List Item) (rs : List (List Item)) : Option (List Item) :=
  usplit (compareKey le) (fun rs => rukeymergel le rs []) x y l r rs

def ukeysplit_2 (y : Item) (l r : List Item) : Option (List Item) :=
  usplitDown (compareKey le) (fun rs => rukeymergel le rs []) y l r

def ukeysort_1 : Item → List Item → Option (List Item)
  | x, y :: l =>
    if equal le x y then ukeysort_1 x l
    else if le y x = false then ukeysplit_1 le x y l [] []
    else ukeysplit_2 le y l [x]
  | x, [] => some [x]

def ukeysort : List Item → Option (List Item)
  | [] => some []
  | [x] => some [x]
  | x :: y :: t =>
    if equal le x y then ukeysort_1 le x t
    else if le y x = false then
      match t with
      | [] => some [x, y]
      | [z] =>
        if equal le y z then some [x, y]
        else if le z y = false then some [x, y, z]
        else if equal le z x then some [x, y]
        else if le x z then some [x, z, y]
        else some [z, x, y]
      | t => ukeysplit_1 le x y t [] []
    else
      match t with
      | [] => some [y, x]
      | [z] =>
        if equal le x z then some [y, x]
        else if le z x = false then some [y, x, z]
        else if equal le y z then some [y, x]
        else if le y z then some [y, z, x]
        else some [z, y, x]
      | t => ukeysplit_2 le y t [x]

/-- How `ufsplit_1` asks the fun. -/
def compareFun (z y : Item) : Ordering :=
  if le y z then if le z y then .eq else .gt else .lt

def ufsplit_1 (y x : Item) (l r : List Item) (rs : List (List Item)) : Option (List Item) :=
  usplit (compareFun le) (fun rs => rufmergel le rs []) x y l r rs

def ufsplit_2 (y : Item) (l r : List Item) : Option (List Item) :=
  usplitDown (compareFun le) (fun rs => rufmergel le rs []) y l r

def usortFun_1 : Item → List Item → Option (List Item)
  | x, y :: l =>
    if le x y then
      if le y x then
        match l with
        | [] => some [x]
        | l => usortFun_1 x l
      else ufsplit_1 le y x l [] []
    else ufsplit_2 le y l [x]
  | _, [] => none

def usortFun : List Item → Option (List Item)
  | [x] => some [x]
  | [] => some []
  | x :: l => usortFun_1 le x l

end Otp.Lists
