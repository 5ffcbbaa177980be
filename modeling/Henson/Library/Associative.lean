import Mathlib.Data.List.Perm.Basic

/-!
# Associative containers

Entries are found by a key. An ordered container keeps them sorted by a comparison
of keys; a hashed one keeps them in whatever arrangement its table has. Putting
entries into an empty container one by one, in the order another container lists
them, gives that container back: the same list when it is ordered, a rearrangement
when it is hashed.
-/

namespace Associative

universe u v

variable {K : Type u} {E : Type v} {same : K → K → Prop}

/-- A comparison of keys that cannot tell two keys apart when they are the `same`. -/
structure KeyOrder (same : K → K → Prop) where
  lt : K → K → Bool
  trans : ∀ {a b c}, lt a b = true → lt b c = true → lt a c = true
  respects : ∀ {a a' b b'}, same a a' → same b b' → lt a b = lt a' b'

/-- How a hash table tells keys apart, and the order in which it lists its entries after an
insertion. -/
structure Hashing (same : K → K → Prop) (E : Type v) where
  eq : K → K → Bool
  symm : ∀ a b, eq a b = eq b a
  respects : ∀ {a a' b b'}, same a a' → same b b' → eq a b = eq a' b'
  arrange : List E → List E
  perm : ∀ l, (arrange l).Perm l

structure Ordered (order : KeyOrder same) (key : E → K) where
  entries : List E
  sorted : entries.Pairwise fun a b => order.lt (key a) (key b) = true

/-- Going on to the first entry that is not below the key. -/
def findIn (order : KeyOrder same) (key : E → K) (k : K) : List E → Option E
  | [] => none
  | a :: l =>
    if order.lt (key a) k then findIn order key k l
    else if order.lt k (key a) then none
    else some a

def placeIn (order : KeyOrder same) (key : E → K) (replace : E → E → E) (e : E) : List E → List E
  | [] => [e]
  | a :: l =>
    if order.lt (key a) (key e) then a :: placeIn order key replace e l
    else if order.lt (key e) (key a) then e :: a :: l
    else replace a e :: l

variable {order : KeyOrder same} {key : E → K}

theorem key_of_mem_placeIn {replace : E → E → E} (hKey : ∀ a e, key (replace a e) = key a)
    {e b : E} {l : List E} (h : b ∈ placeIn order key replace e l) :
    key b = key e ∨ ∃ a ∈ l, key b = key a := by
  induction l with
  | nil => exact .inl (congrArg key (List.mem_singleton.mp h))
  | cons a l ih =>
    rw [placeIn] at h
    split at h
    · rcases List.mem_cons.mp h with rfl | hTail
      · exact .inr ⟨b, List.mem_cons_self, rfl⟩
      · rcases ih hTail with hNew | ⟨c, hc, hOld⟩
        · exact .inl hNew
        · exact .inr ⟨c, List.mem_cons_of_mem a hc, hOld⟩
    · split at h
      · rcases List.mem_cons.mp h with rfl | hOld
        · exact .inl rfl
        · exact .inr ⟨b, hOld, rfl⟩
      · rcases List.mem_cons.mp h with rfl | hOld
        · exact .inr ⟨a, List.mem_cons_self, hKey a e⟩
        · exact .inr ⟨b, List.mem_cons_of_mem a hOld, rfl⟩

theorem placeIn_sorted {replace : E → E → E} (hKey : ∀ a e, key (replace a e) = key a) (e : E)
    {l : List E} (h : l.Pairwise fun a b => order.lt (key a) (key b) = true) :
    (placeIn order key replace e l).Pairwise fun a b => order.lt (key a) (key b) = true := by
  induction l with
  | nil => exact List.pairwise_singleton _ e
  | cons a l ih =>
    obtain ⟨hHead, hTail⟩ := List.pairwise_cons.mp h
    rw [placeIn]
    split
    · rename_i hBelow
      refine List.pairwise_cons.mpr ⟨fun b hb => ?_, ih hTail⟩
      rcases key_of_mem_placeIn hKey hb with hNew | ⟨c, hc, hOld⟩
      · rw [hNew]
        exact hBelow
      · rw [hOld]
        exact hHead c hc
    · split
      · rename_i hAbove
        refine List.pairwise_cons.mpr ⟨fun b hb => ?_, h⟩
        rcases List.mem_cons.mp hb with rfl | hLater
        · exact hAbove
        · exact order.trans hAbove (hHead b hLater)
      · refine List.pairwise_cons.mpr ⟨fun b hb => ?_, hTail⟩
        rw [hKey]
        exact hHead b hb

theorem findIn_of_forall_lt {k : K} {l : List E}
    (h : ∀ a ∈ l, order.lt (key a) k = true) : findIn order key k l = none := by
  induction l with
  | nil => rfl
  | cons a l ih =>
    rw [findIn, if_pos (h a List.mem_cons_self)]
    exact ih fun b hb => h b (List.mem_cons_of_mem a hb)

theorem placeIn_of_forall_lt {replace : E → E → E} {e : E} {l : List E}
    (h : ∀ a ∈ l, order.lt (key a) (key e) = true) :
    placeIn order key replace e l = l ++ [e] := by
  induction l with
  | nil => rfl
  | cons a l ih =>
    rw [placeIn, if_pos (h a List.mem_cons_self), ih fun b hb => h b (List.mem_cons_of_mem a hb)]
    rfl

namespace Ordered

def empty : Ordered order key := ⟨[], List.Pairwise.nil⟩

def find? (m : Ordered order key) (k : K) : Option E := findIn order key k m.entries

/-- The entry replaces one with the same key, or goes between its neighbours. -/
def place (replace : E → E → E) (hKey : ∀ a e, key (replace a e) = key a)
    (m : Ordered order key) (e : E) : Ordered order key :=
  ⟨placeIn order key replace e m.entries, placeIn_sorted hKey e m.sorted⟩

theorem entries_place_of_forall_lt {replace : E → E → E} {hKey : ∀ a e, key (replace a e) = key a}
    {m : Ordered order key} {e : E} (h : ∀ a ∈ m.entries, order.lt (key a) (key e) = true) :
    (m.place replace hKey e).entries = m.entries ++ [e] :=
  placeIn_of_forall_lt h

end Ordered

structure Hashed (hashing : Hashing same E) (key : E → K) where
  entries : List E
  distinct : entries.Pairwise fun a b => hashing.eq (key a) (key b) = false

namespace Hashed

variable {hashing : Hashing same E}

def empty : Hashed hashing key := ⟨[], List.Pairwise.nil⟩

/-- An entry whose key is there already is dropped. -/
def emplace (m : Hashed hashing key) (e : E) : Hashed hashing key :=
  if h : ∀ a ∈ m.entries, hashing.eq (key e) (key a) = false then
    { entries := hashing.arrange (e :: m.entries)
      distinct := ((hashing.perm _).pairwise_iff fun {a b} hab =>
        (hashing.symm (key b) (key a)).trans hab).mpr (List.pairwise_cons.mpr ⟨h, m.distinct⟩) }
  else m

theorem entries_emplace_perm {m : Hashed hashing key} {e : E}
    (h : ∀ a ∈ m.entries, hashing.eq (key e) (key a) = false) :
    (m.emplace e).entries.Perm (e :: m.entries) := by
  rw [emplace, dif_pos h]
  exact hashing.perm _

end Hashed

end Associative
