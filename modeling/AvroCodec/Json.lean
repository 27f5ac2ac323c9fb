/-!
# Documents

Schemas are JSON documents. The order of an object's members is part of the document: it shows in
every text made from it. Objects are therefore lists of pairs, and `Json.put` replaces a member where
it stands and adds a new one at the end.

Two documents can be equal in two senses. `Json.same` compares them as data: numbers by value, with
`false` and `true` counting as 0 and 1, and objects without regard to order. Identity of documents,
order included, is Lean's own equality.
-/

namespace AvroCodec

inductive Json where
  | null
  | bool (b : Bool)
  | int (n : Int)
  /-- The number `mantissa / 10 ^ places`, for numbers written with a fraction. -/
  | fraction (mantissa : Int) (places : Nat)
  | str (s : String)
  | arr (items : List Json)
  | obj (members : List (String × Json))
deriving Inhabited

/-- What an object holds, in its order. -/
abbrev Members := List (String × Json)

namespace Json

def lookup (key : String) : List (String × Json) → Option Json
  | [] => none
  | (k, v) :: rest => if k = key then some v else lookup key rest

/-- Replaces the member with the given key where it stands, or adds it at the end. -/
def put (key : String) (value : Json) : List (String × Json) → List (String × Json)
  | [] => [(key, value)]
  | (k, v) :: rest => if k = key then (k, value) :: rest else (k, v) :: put key value rest

@[simp]
theorem lookup_put_self (key : String) (value : Json) (members : Members) :
    lookup key (put key value members) = some value := by
  induction members with
  | nil => simp [put, lookup]
  | cons m rest ih =>
    obtain ⟨k, v⟩ := m
    by_cases h : k = key <;> simp [put, lookup, h, ih]

theorem lookup_put_of_ne {key other : String} (h : other ≠ key) (value : Json)
    (members : Members) :
    lookup other (put key value members) = lookup other members := by
  induction members with
  | nil => simp [put, lookup, Ne.symm h]
  | cons m rest ih =>
    obtain ⟨k, v⟩ := m
    by_cases hk : k = key
    · subst hk
      simp [put, lookup, Ne.symm h]
    · rw [put, if_neg hk, lookup, lookup, ih]

def get? : Json → String → Option Json
  | .obj members, key => lookup key members
  | _, _ => none

def isObj : Json → Bool
  | .obj _ => true
  | _ => false

def isArr : Json → Bool
  | .arr _ => true
  | _ => false

def isStr (s : String) : Json → Bool
  | .str t => t == s
  | _ => false

/-- Nothing, `false`, zero and whatever is empty do not count as given. -/
def truthy : Json → Bool
  | .null => false
  | .bool b => b
  | .int n => n != 0
  | .fraction m _ => m != 0
  | .str s => s != ""
  | .arr items => !items.isEmpty
  | .obj members => !members.isEmpty

/-- Scalars can be names and keys of tables, lists and objects cannot. -/
def isScalar : Json → Bool
  | .arr _ | .obj _ => false
  | _ => true

/-- The integer a document stands for where an integer is wanted: an integer, or a truth value. -/
def toInt? : Json → Option Int
  | .int n => some n
  | .bool b => some (if b then 1 else 0)
  | _ => none

def number? : Json → Option (Int × Nat)
  | .bool b => some (if b then 1 else 0, 0)
  | .int n => some (n, 0)
  | .fraction m p => some (m, p)
  | _ => none

/-- What a loop over the document runs through: the items of a list, the characters of a string, the
keys of an object. -/
def elements? : Json → Option (List Json)
  | .arr items => some items
  | .str s => some (s.toList.map fun c => .str c.toString)
  | .obj members => some (members.map fun m => .str m.1)
  | _ => none

def sameNumber (a b : Int × Nat) : Bool :=
  a.1 * Nat.pow 10 b.2 == b.1 * Nat.pow 10 a.2

mutual

/-- Equality as data: numbers by value, objects without regard to order. -/
def same : Json → Json → Bool
  | .null, .null => true
  | .str a, .str b => a == b
  | .arr as, .arr bs => sameItems as bs
  | .obj as, .obj bs => as.length == bs.length && sameMembers as bs
  | a, b =>
    match a.number?, b.number? with
    | some x, some y => sameNumber x y
    | _, _ => false

def sameItems : List Json → List Json → Bool
  | [], [] => true
  | a :: as, b :: bs => same a b && sameItems as bs
  | _, _ => false

def sameMembers : List (String × Json) → List (String × Json) → Bool
  | [], _ => true
  | (k, a) :: as, bs =>
    (match lookup k bs with
      | some b => same a b
      | none => false) && sameMembers as bs

end

mutual

def identical : Json → Json → Bool
  | .null, .null => true
  | .bool a, .bool b => a == b
  | .int m, .int n => m == n
  | .fraction m p, .fraction n q => m == n && p == q
  | .str s, .str t => s == t
  | .arr as, .arr bs => identicalItems as bs
  | .obj as, .obj bs => identicalMembers as bs
  | _, _ => false

def identicalItems : List Json → List Json → Bool
  | [], [] => true
  | a :: as, b :: bs => identical a b && identicalItems as bs
  | _, _ => false

def identicalMembers : List (String × Json) → List (String × Json) → Bool
  | [], [] => true
  | (k, a) :: as, (l, b) :: bs => k == l && identical a b && identicalMembers as bs
  | _, _ => false

end

mutual

theorem identical_iff : ∀ a b : Json, identical a b = true ↔ a = b
  | .null, b => by cases b <;> simp [identical]
  | .bool _, b => by cases b <;> simp [identical]
  | .int _, b => by cases b <;> simp [identical]
  | .fraction _ _, b => by cases b <;> simp [identical]
  | .str _, b => by cases b <;> simp [identical]
  | .arr as, b => by cases b <;> simp [identical, identicalItems_iff as]
  | .obj as, b => by cases b <;> simp [identical, identicalMembers_iff as]

theorem identicalItems_iff : ∀ as bs : List Json, identicalItems as bs = true ↔ as = bs
  | [], bs => by cases bs <;> simp [identicalItems]
  | a :: as, bs => by
    cases bs <;> simp [identicalItems, identical_iff a, identicalItems_iff as]

theorem identicalMembers_iff :
    ∀ as bs : List (String × Json), identicalMembers as bs = true ↔ as = bs
  | [], bs => by cases bs <;> simp [identicalMembers]
  | (k, a) :: as, bs => by
    cases bs <;> simp [identicalMembers, identical_iff a, identicalMembers_iff as, Prod.ext_iff]

end

instance : DecidableEq Json := fun a b => decidable_of_iff _ (identical_iff a b)

mutual

def depth : Json → Nat
  | .arr items => depthItems items + 1
  | .obj members => depthMembers members + 1
  | _ => 0

def depthItems : List Json → Nat
  | [] => 0
  | x :: xs => max (depth x) (depthItems xs)

def depthMembers : List (String × Json) → Nat
  | [] => 0
  | (_, x) :: xs => max (depth x) (depthMembers xs)

end

mutual

/-- The number of strings that stand as values, at any depth. -/
def stringCount : Json → Nat
  | .str _ => 1
  | .arr items => stringCountItems items
  | .obj members => stringCountMembers members
  | _ => 0

def stringCountItems : List Json → Nat
  | [] => 0
  | x :: xs => stringCount x + stringCountItems xs

def stringCountMembers : List (String × Json) → Nat
  | [] => 0
  | (_, x) :: xs => stringCount x + stringCountMembers xs

end

mutual

/-- The number of objects that have a member `name`, at any depth. -/
def namedCount : Json → Nat
  | .arr items => namedCountItems items
  | .obj members => namedCountMembers members + (if (lookup "name" members).isSome then 1 else 0)
  | _ => 0

def namedCountItems : List Json → Nat
  | [] => 0
  | x :: xs => namedCount x + namedCountItems xs

def namedCountMembers : List (String × Json) → Nat
  | [] => 0
  | (_, x) :: xs => namedCount x + namedCountMembers xs

end

theorem depth_le_of_mem_items {x : Json} {items : List Json} (h : x ∈ items) :
    x.depth ≤ depthItems items := by
  induction items with
  | nil => simp at h
  | cons y ys ih =>
    rw [depthItems]
    rcases List.mem_cons.1 h with rfl | h
    · exact Nat.le_max_left ..
    · exact Nat.le_trans (ih h) (Nat.le_max_right ..)

theorem depth_le_of_lookup {key : String} {x : Json} {members : Members}
    (h : lookup key members = some x) : x.depth ≤ depthMembers members := by
  induction members with
  | nil => simp [lookup] at h
  | cons m rest ih =>
    obtain ⟨k, v⟩ := m
    rw [depthMembers]
    by_cases hk : k = key
    · simp only [lookup, hk, if_true, Option.some.injEq] at h
      subst h
      exact Nat.le_max_left ..
    · simp only [lookup, hk, if_false] at h
      exact Nat.le_trans (ih h) (Nat.le_max_right ..)

end Json

end AvroCodec
