import Mathlib.Data.List.Nodup
import CryptoScan.Python.Text

/-!
# Dictionaries

A Python `dict`: its items in insertion order, no key twice. Assigning to a key that is there
replaces the value in place; a new key goes to the end. `get?` is what a program observes through
`d[k]` and `k in d`, and the `get?_set_*` laws are all that reasoning about assignments needs.

A program that prints a dictionary also shows the order of its keys. Whatever is assigned, and in
which way the values depend on what is there, the keys are those assigned to, each where it came up
first (`keys_foldl_set`); `firsts` is that order.
-/

namespace CryptoScan.Python

/-! ## First occurrences -/

section FirstOccurrences

variable {α : Type} [DecidableEq α]

/-- The elements of a list, each where it comes up first. -/
def firsts (l : List α) : List α := l.eraseDups

theorem mem_firsts {l : List α} {a : α} : a ∈ firsts l ↔ a ∈ l := List.mem_eraseDups

theorem firsts_of_nodup {l : List α} (h : l.Nodup) : firsts l = l := by
  unfold firsts
  induction l with
  | nil => rfl
  | cons a l ih =>
      obtain ⟨ha, hl⟩ := List.nodup_cons.mp h
      have hfilter : l.filter (fun b => !b == a) = l := by
        rw [List.filter_eq_self]
        intro b hb
        have hne : b ≠ a := fun hba => ha (hba ▸ hb)
        simp [hne]
      rw [List.eraseDups_cons, hfilter, ih hl]

theorem firsts_append (l ys : List α) :
    firsts (l ++ ys) = firsts l ++ firsts (ys.filter (· ∉ l)) := by
  unfold firsts
  rw [List.eraseDups_append]
  simp [List.removeAll]

theorem firsts_concat (l : List α) (a : α) :
    firsts (l ++ [a]) = if a ∈ l then firsts l else firsts l ++ [a] := by
  rw [firsts_append]
  by_cases h : a ∈ l
  · simp [h, firsts]
  · simp [h, firsts, List.eraseDups_cons]

theorem nodup_firsts (l : List α) : (firsts l).Nodup := by
  induction l using List.reverseRecOn with
  | nil => exact List.nodup_nil
  | append_singleton l a ih =>
      rw [firsts_concat]
      split
      · exact ih
      · next h =>
          have ha : a ∉ firsts l := fun hmem => h (mem_firsts.mp hmem)
          exact List.Nodup.append ih (List.nodup_singleton a) (List.disjoint_singleton.mpr ha)

theorem firsts_perm {l l' : List α} (h : l.Perm l') : (firsts l).Perm (firsts l') := by
  rw [List.perm_ext_iff_of_nodup (nodup_firsts l) (nodup_firsts l')]
  intro a
  rw [mem_firsts, mem_firsts]
  exact h.mem_iff

theorem firsts_append_left (l ys : List α) : firsts (firsts l ++ ys) = firsts (l ++ ys) := by
  rw [firsts_append, firsts_append, firsts_of_nodup (nodup_firsts l)]
  simp only [mem_firsts]

/-- Going through the same list again adds nothing. -/
theorem firsts_append_self (l : List α) : firsts (l ++ l) = firsts l := by
  have hnone : l.filter (· ∉ l) = [] := by simp
  rw [firsts_append, hnone]
  exact List.append_nil _

end FirstOccurrences

structure Dict (κ ν : Type) where
  entries : List (κ × ν)
  nodup : (entries.map Prod.fst).Nodup

namespace Dict

variable {κ ν : Type} [DecidableEq κ]

/-- `{}`. -/
def empty : Dict κ ν := ⟨[], List.nodup_nil⟩

def get? (d : Dict κ ν) (k : κ) : Option ν := d.entries.lookup k

def keys (d : Dict κ ν) : List κ := d.entries.map Prod.fst

/-- `k in d`. -/
def contains (d : Dict κ ν) (k : κ) : Bool := (d.get? k).isSome

/-- `d[k]`. -/
def getItem (d : Dict Text ν) (k : Text) : Except Exc ν :=
  match d.get? k with
  | some v => .ok v
  | none => .error (.keyError k)

/-- The items after `d[k] = v`. -/
def setEntries (k : κ) (v : ν) : List (κ × ν) → List (κ × ν)
  | [] => [(k, v)]
  | e :: es => if e.1 = k then (k, v) :: es else e :: setEntries k v es

theorem mem_keys_setEntries {k k' : κ} {v : ν} {es : List (κ × ν)} :
    k' ∈ (setEntries k v es).map Prod.fst ↔ k' = k ∨ k' ∈ es.map Prod.fst := by
  induction es with
  | nil => simp [setEntries]
  | cons e es ih =>
      unfold setEntries
      split
      · next h => simp [h]
      · simp only [List.map_cons, List.mem_cons, ih]
        exact or_left_comm

theorem nodup_setEntries {k : κ} {v : ν} {es : List (κ × ν)} (h : (es.map Prod.fst).Nodup) :
    ((setEntries k v es).map Prod.fst).Nodup := by
  induction es with
  | nil => simp [setEntries]
  | cons e es ih =>
      rw [List.map_cons, List.nodup_cons] at h
      unfold setEntries
      split
      · next hk =>
          rw [List.map_cons, List.nodup_cons, ← hk]
          exact h
      · next hk =>
          rw [List.map_cons, List.nodup_cons, mem_keys_setEntries]
          refine ⟨?_, ih h.2⟩
          rintro (heq | hmem)
          · exact hk heq
          · exact h.1 hmem

/-- `d[k] = v`. -/
def set (d : Dict κ ν) (k : κ) (v : ν) : Dict κ ν :=
  ⟨setEntries k v d.entries, nodup_setEntries d.nodup⟩

/-- `del d[k]`. -/
def erase (d : Dict κ ν) (k : κ) : Dict κ ν :=
  ⟨d.entries.filter (fun e => e.1 ≠ k), d.nodup.sublist (List.filter_sublist.map _)⟩

@[simp] theorem get?_set_self (d : Dict κ ν) (k : κ) (v : ν) : (d.set k v).get? k = some v := by
  show (setEntries k v d.entries).lookup k = some v
  induction d.entries with
  | nil => simp [setEntries]
  | cons e es ih =>
      obtain ⟨k₀, v₀⟩ := e
      unfold setEntries
      split
      · simp
      · next h =>
          have hne : (k == k₀) = false := beq_eq_false_iff_ne.mpr (Ne.symm h)
          rw [List.lookup_cons, hne]
          exact ih

theorem get?_set_ne (d : Dict κ ν) {k k' : κ} (h : k' ≠ k) (v : ν) :
    (d.set k v).get? k' = d.get? k' := by
  have hne : (k' == k) = false := beq_eq_false_iff_ne.mpr h
  show (setEntries k v d.entries).lookup k' = d.entries.lookup k'
  induction d.entries with
  | nil => simp [setEntries, h]
  | cons e es ih =>
      obtain ⟨k₀, v₀⟩ := e
      unfold setEntries
      split
      · next heq =>
          cases heq
          rw [List.lookup_cons, List.lookup_cons, hne]
      · rw [List.lookup_cons, List.lookup_cons, ih]

theorem get?_erase_ne (d : Dict κ ν) {k k' : κ} (h : k' ≠ k) : (d.erase k).get? k' = d.get? k' := by
  show (d.entries.filter fun e => e.1 ≠ k).lookup k' = d.entries.lookup k'
  induction d.entries with
  | nil => rfl
  | cons e es ih =>
      obtain ⟨k₀, v₀⟩ := e
      by_cases hk : k₀ = k
      · have hne : (k' == k₀) = false := beq_eq_false_iff_ne.mpr fun heq => h (heq.trans hk)
        rw [List.filter_cons_of_neg (by simp [hk]), ih, List.lookup_cons, hne]
      · rw [List.filter_cons_of_pos (by simp [hk]), List.lookup_cons, List.lookup_cons, ih]

theorem get?_set (d : Dict κ ν) (k k' : κ) (v : ν) :
    (d.set k v).get? k' = if k' = k then some v else d.get? k' := by
  split
  · next h => rw [h, get?_set_self]
  · next h => rw [get?_set_ne d h]

theorem getItem_of_get? {d : Dict Text ν} {k : Text} {v : ν} (h : d.get? k = some v) :
    d.getItem k = .ok v := by
  unfold getItem
  rw [h]

/-- An item is what its key reads. -/
theorem get?_of_mem (d : Dict κ ν) {k : κ} {v : ν} (h : (k, v) ∈ d.entries) :
    d.get? k = some v := by
  obtain ⟨es, hnd⟩ := d
  show es.lookup k = some v
  induction es with
  | nil => cases h
  | cons e es ih =>
      obtain ⟨k₀, v₀⟩ := e
      rw [List.map_cons, List.nodup_cons] at hnd
      rcases List.mem_cons.mp h with heq | hmem
      · cases heq
        simp
      · have hne : (k == k₀) = false :=
          beq_eq_false_iff_ne.mpr fun heq => hnd.1 (List.mem_map.mpr ⟨(k, v), hmem, heq⟩)
        rw [List.lookup_cons, hne]
        exact ih hnd.2 hmem

theorem mem_keys_set (d : Dict κ ν) {k k' : κ} {v : ν} :
    k' ∈ (d.set k v).keys ↔ k' = k ∨ k' ∈ d.keys :=
  mem_keys_setEntries

theorem mem_keys_erase (d : Dict κ ν) {k k' : κ} : k' ∈ (d.erase k).keys ↔ k' ∈ d.keys ∧ k' ≠ k := by
  simp [keys, erase]

/-- A key that reads nothing is not there. -/
theorem not_mem_keys_of_get? {d : Dict κ ν} {k : κ} (h : d.get? k = none) : k ∉ d.keys := by
  intro hk
  obtain ⟨⟨k₀, v₀⟩, he, rfl⟩ := List.mem_map.mp hk
  rw [d.get?_of_mem he] at h
  cases h

/-- Items are keys with what they read. -/
theorem entries_eq_map_keys (d : Dict κ ν) (v₀ : ν) :
    d.entries = d.keys.map fun k => (k, (d.get? k).getD v₀) := by
  have hread : ∀ e ∈ d.entries, (e.1, (d.get? e.1).getD v₀) = id e := by
    intro e he
    rw [d.get?_of_mem he]
    rfl
  rw [keys, List.map_map]
  exact ((List.map_congr_left hread).trans (List.map_id _)).symm

/-! ## Assignments one after the other -/

/-- Of two assignments to a key the last one counts. -/
theorem set_set (d : Dict κ ν) (k : κ) (v v' : ν) : (d.set k v).set k v' = d.set k v' := by
  have h : ∀ es : List (κ × ν), setEntries k v' (setEntries k v es) = setEntries k v' es := by
    intro es
    induction es with
    | nil => simp [setEntries]
    | cons e es ih =>
        by_cases he : e.1 = k
        · simp [setEntries, he]
        · simp [setEntries, he, ih]
  unfold set
  congr 1
  exact h d.entries

/-- Assigning what is there already changes nothing. -/
theorem set_of_get? {d : Dict κ ν} {k : κ} {v : ν} (h : d.get? k = some v) : d.set k v = d := by
  have hset : ∀ es : List (κ × ν), es.lookup k = some v → setEntries k v es = es := by
    intro es hes
    induction es with
    | nil => cases hes
    | cons e es ih =>
        obtain ⟨k₀, v₀⟩ := e
        rw [List.lookup_cons] at hes
        by_cases hk : k₀ = k
        · subst hk
          simp only [BEq.rfl, Option.some.injEq] at hes
          simp [setEntries, hes]
        · have hne : (k == k₀) = false := beq_eq_false_iff_ne.mpr (Ne.symm hk)
          rw [hne] at hes
          simp [setEntries, hk, ih hes]
  unfold set
  congr 1
  exact hset d.entries h

omit [DecidableEq κ] in
theorem nodup_keys (d : Dict κ ν) : d.keys.Nodup := d.nodup

theorem keys_set (d : Dict κ ν) (k : κ) (v : ν) : (d.set k v).keys = firsts (d.keys ++ [k]) := by
  have hentries : ∀ es : List (κ × ν), (setEntries k v es).map Prod.fst =
      if k ∈ es.map Prod.fst then es.map Prod.fst else es.map Prod.fst ++ [k] := by
    intro es
    induction es with
    | nil => rfl
    | cons e es ih =>
        unfold setEntries
        by_cases he : e.1 = k
        · simp [he]
        · rw [if_neg he, List.map_cons, ih, List.map_cons]
          by_cases hk : k ∈ es.map Prod.fst
          · rw [if_pos hk, if_pos (List.mem_cons_of_mem _ hk)]
          · rw [if_neg hk, if_neg (List.not_mem_cons_of_ne_of_not_mem (Ne.symm he) hk)]
            rfl
  rw [firsts_concat, firsts_of_nodup d.nodup_keys]
  exact hentries d.entries

/-- **The keys after any assignments**: those there before, then the new ones as they come up. -/
theorem keys_foldl_set {δ : Type} (key : δ → κ) (val : Dict κ ν → δ → ν) (xs : List δ)
    (d : Dict κ ν) :
    (xs.foldl (fun d x => d.set (key x) (val d x)) d).keys = firsts (d.keys ++ xs.map key) := by
  induction xs generalizing d with
  | nil =>
      rw [List.map_nil, List.append_nil, firsts_of_nodup d.nodup_keys]
      rfl
  | cons x xs ih =>
      rw [List.foldl_cons, ih, keys_set, firsts_append_left, List.append_assoc]
      rfl

/-- Count `n` more for a key, from 0 if it is new. -/
def bump (d : Dict κ Nat) (k : κ) (n : Nat) : Dict κ Nat := d.set k ((d.get? k).getD 0 + n)

theorem bump_bump (d : Dict κ Nat) (k : κ) (m n : Nat) :
    (d.bump k m).bump k n = d.bump k (m + n) := by
  unfold bump
  rw [get?_set_self, set_set, Option.getD_some, Nat.add_assoc]

end Dict

end CryptoScan.Python
