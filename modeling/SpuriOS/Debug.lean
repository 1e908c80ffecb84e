import SpuriOS.Common
import Mathlib.Data.List.Pairwise
import Mathlib.Data.Nat.Find
import Mathlib.Tactic.Common

/-! # Symbols of the kernel (`kernel/debug.c`, `gensym.py`)

The memory starts at `__symbols` and consists of words of 32 bits: an entry has two of them, and
behind the entries is `__symbols_total`. -/

namespace SpuriOS

structure SymbolEntry where
  address : UInt32
  /-- A pointer. -/
  string : UInt32
  deriving DecidableEq, Repr

/-- The symbols that `gensym.py` has read, sorted by address. -/
structure SymbolTable where
  entries : List SymbolEntry
  increasing : entries.Pairwise fun e e' => e.address < e'.address
  /-- The entries and their total are in a memory of `2 ^ 32` bytes. -/
  fits : 8 * entries.length + 4 ≤ 2 ^ 32

namespace SymbolTable

/-- `symbols.asm` in memory; the strings follow. -/
structure Loaded (t : SymbolTable) (m : Nat → UInt32) : Prop where
  address : ∀ i (h : i < t.entries.length), m (2 * i) = t.entries[i].address
  string : ∀ i (h : i < t.entries.length), m (2 * i + 1) = t.entries[i].string
  total : m (2 * t.entries.length) = UInt32.ofNat t.entries.length

end SymbolTable

/-- What `symbol_name` returns: the string and the displacement. -/
structure SymbolName where
  string : UInt32
  displacement : UInt32
  deriving DecidableEq, Repr

/-- The string `NULL`. -/
def SymbolName.null : SymbolName := ⟨0, 0⟩

/-- The loop of `symbol_name` from `i` on, with the entries that it reads. Each round adds to `i`,
so that `symbolsTotal - i` rounds are enough. -/
def symbolLoop (m : Nat → UInt32) (symbolsTotal : Nat) (address : UInt32) :
    (fuel i : Nat) → List Nat × SymbolName
  | 0, _ => ([], .null)
  | fuel + 1, i =>
    if i < symbolsTotal then
      if m (2 * i) ≤ address then
        if address < m (2 * (i + 1)) then ([i, i + 1], ⟨m (2 * i + 1), address - m (2 * i)⟩)
        else
          let r := symbolLoop m symbolsTotal address fuel (i + 1)
          (i :: (i + 1) :: r.1, r.2)
      else
        let r := symbolLoop m symbolsTotal address fuel (i + 1)
        (i :: r.1, r.2)
    else ([], .null)

def symbolName (m : Nat → UInt32) (symbolsTotal : UInt32) (address : UInt32) :
    List Nat × SymbolName :=
  symbolLoop m symbolsTotal.toNat address symbolsTotal.toNat 0

/-- The entry with the greatest address that is not above `address`. -/
structure SymbolTable.Encloses (t : SymbolTable) (address : UInt32) (e : SymbolEntry) : Prop where
  mem : e ∈ t.entries
  le : e.address ≤ address
  greatest : ∀ e' ∈ t.entries, e'.address ≤ address → e'.address ≤ e.address

/-- The lookup reads entries of the table and finds the enclosing one, or `NULL` below all. -/
structure SymbolTable.Finds (t : SymbolTable) (address : UInt32) (r : List Nat × SymbolName) :
    Prop where
  reads : ∀ i ∈ r.1, i < t.entries.length
  found : ∀ e, t.Encloses address e → r.2 = ⟨e.string, address - e.address⟩
  below : (∀ e ∈ t.entries, address < e.address) → r.2 = .null

section
variable {m : Nat → UInt32} {total fuel i k : Nat} {address : UInt32}

/-- Up to an entry `k` that is not above the address, the loop reads every entry, and the one behind
it. It ends there if the next one is above the address. -/
theorem symbolLoop_upto (hle : ∀ j ≤ k, m (2 * j) ≤ address) (hi : i ≤ k) (hk : k < total)
    (hfuel : total ≤ i + fuel) :
    k + 1 ∈ (symbolLoop m total address fuel i).1 ∧
      (address < m (2 * (k + 1)) →
        (∀ j ∈ (symbolLoop m total address fuel i).1, j ≤ k + 1) ∧
          (symbolLoop m total address fuel i).2 = ⟨m (2 * k + 1), address - m (2 * k)⟩) := by
  induction fuel generalizing i with
  | zero => omega
  | succ fuel ih =>
    rw [symbolLoop, if_pos (by omega), if_pos (hle i hi)]
    obtain rfl | hlt := Nat.eq_or_lt_of_le hi
    · split
      next hend => exact ⟨by simp, fun _ => ⟨by simp, rfl⟩⟩
      next hend => exact ⟨by simp, fun habove => absurd habove hend⟩
    · have hnext : ¬address < m (2 * (i + 1)) := UInt32.not_lt.2 (hle (i + 1) hlt)
      obtain ⟨hmem, hend⟩ := ih hlt (by omega)
      rw [if_neg hnext]
      refine ⟨List.mem_cons_of_mem _ (List.mem_cons_of_mem _ hmem), fun habove => ?_⟩
      obtain ⟨hreads, hfound⟩ := hend habove
      refine ⟨fun j hj => ?_, hfound⟩
      rcases List.mem_cons.1 hj with rfl | hj
      · omega
      rcases List.mem_cons.1 hj with rfl | hj
      · omega
      · exact hreads j hj

/-- When all entries are above the address, each is read, and none is found. -/
theorem symbolLoop_below (habove : ∀ j < total, address < m (2 * j)) :
    (∀ j ∈ (symbolLoop m total address fuel i).1, j < total) ∧
      (symbolLoop m total address fuel i).2 = .null := by
  induction fuel generalizing i with
  | zero => exact ⟨nofun, rfl⟩
  | succ fuel ih =>
    rw [symbolLoop]
    split
    next hi =>
      rw [if_neg (UInt32.not_le.2 (habove i hi))]
      refine ⟨fun j hj => ?_, ih.2⟩
      rcases List.mem_cons.1 hj with rfl | hj
      · exact hi
      · exact ih.1 j hj
    next => exact ⟨nofun, rfl⟩

end

namespace SymbolTable
variable {t : SymbolTable} {m : Nat → UInt32} {address : UInt32}

theorem lt_of_lt {i j : Nat} (hij : i < j) (hj : j < t.entries.length) :
    t.entries[i].address < t.entries[j].address :=
  List.pairwise_iff_getElem.1 t.increasing i j (Nat.lt_trans hij hj) hj hij

theorem le_of_le {i j : Nat} (hij : i ≤ j) (hj : j < t.entries.length) :
    t.entries[i].address ≤ t.entries[j].address := by
  obtain rfl | hlt := Nat.eq_or_lt_of_le hij
  · exact UInt32.le_refl _
  · exact UInt32.le_of_lt (lt_of_lt hlt hj)

/-- The entry before the first one above the address encloses it, and no other one does. -/
theorem encloses_iff {k : Nat} (hk : k + 1 < t.entries.length)
    (hle : t.entries[k].address ≤ address) (habove : address < t.entries[k + 1].address)
    {e : SymbolEntry} : t.Encloses address e ↔ e = t.entries[k] := by
  have hbefore {i : Nat} (hi : i < t.entries.length) (hi' : t.entries[i].address ≤ address) :
      i ≤ k := by
    by_contra hlt
    have hlt' := UInt32.lt_of_lt_of_le habove (le_of_le (Nat.lt_of_not_le hlt) hi)
    exact absurd hlt' (UInt32.not_lt.2 hi')
  constructor
  · intro he
    obtain ⟨i, hi, rfl⟩ := List.getElem_of_mem he.mem
    obtain rfl | hlt := Nat.eq_or_lt_of_le (hbefore hi he.le)
    · rfl
    · have hgreatest := he.greatest _ (List.getElem_mem (Nat.lt_of_succ_lt hk)) hle
      exact absurd (lt_of_lt hlt (Nat.lt_of_succ_lt hk)) (UInt32.not_lt.2 hgreatest)
  · rintro rfl
    refine ⟨List.getElem_mem _, hle, fun e' he' hle' => ?_⟩
    obtain ⟨i, hi, rfl⟩ := List.getElem_of_mem he'
    exact le_of_le (hbefore hi hle') (Nat.lt_of_succ_lt hk)

theorem Loaded.total_toNat (h : t.Loaded m) :
    (m (2 * t.entries.length)).toNat = t.entries.length := by
  have hfits := t.fits
  rw [h.total]
  exact UInt32.toNat_ofNat_of_lt' (show t.entries.length < 2 ^ 32 by omega)

/-- Between the first entry and the last one, the lookup stops before the end of the table. -/
theorem Loaded.finds (h : t.Loaded m) {e e' : SymbolEntry} (he : e ∈ t.entries)
    (hle : e.address ≤ address) (he' : e' ∈ t.entries) (habove : address < e'.address) :
    t.Finds address (symbolLoop m t.entries.length address t.entries.length 0) := by
  obtain ⟨i, hi, rfl⟩ := List.getElem_of_mem he
  obtain ⟨i', hi', rfl⟩ := List.getElem_of_mem he'
  -- the first entry above the address
  have hex : ∃ j, j < t.entries.length ∧ address < m (2 * j) :=
    ⟨i', hi', by rw [h.address i' hi']; exact habove⟩
  obtain ⟨hj, hfirst⟩ := Nat.find_spec hex
  have hbefore : ∀ j < Nat.find hex, m (2 * j) ≤ address := by
    intro j hj'
    exact UInt32.not_lt.1 fun hlt => Nat.find_min hex hj' ⟨by omega, hlt⟩
  obtain ⟨k, hk⟩ : ∃ k, Nat.find hex = k + 1 := by
    refine Nat.exists_eq_succ_of_ne_zero fun hzero => ?_
    rw [hzero, h.address 0 (by omega)] at hfirst
    have hlt := UInt32.lt_of_lt_of_le hfirst (le_of_le (Nat.zero_le i) hi)
    exact absurd hlt (UInt32.not_lt.2 hle)
  rw [hk] at hj hfirst hbefore
  have hle' := hbefore k (Nat.lt_succ_self k)
  obtain ⟨-, hend⟩ := @symbolLoop_upto m t.entries.length t.entries.length 0 k address
    (fun j hj' => hbefore j (by omega)) (Nat.zero_le _) (by omega) (by omega)
  obtain ⟨hreads, hfound⟩ := hend hfirst
  rw [h.address k (by omega), h.string k (by omega)] at hfound
  rw [h.address k (by omega)] at hle'
  rw [h.address (k + 1) hj] at hfirst
  refine ⟨fun j hj' => Nat.lt_of_le_of_lt (hreads j hj') hj, fun e he => ?_, fun hbelow => ?_⟩
  · rw [hfound, (encloses_iff hj hle' hfirst).1 he]
  · exact absurd (hbelow _ (List.getElem_mem (Nat.lt_of_succ_lt hj))) (UInt32.not_lt.2 hle')

end SymbolTable

/-- The lookup finds the enclosing symbol in the table just when the address is not inside of the
last symbol. -/
theorem symbolName_finds_iff (t : SymbolTable) (m : Nat → UInt32) (h : t.Loaded m)
    (address : UInt32) :
    t.Finds address (symbolName m (m (2 * t.entries.length)) address) ↔
      t.entries = [] ∨ ∃ e ∈ t.entries, address < e.address := by
  rw [symbolName, h.total_toNat]
  constructor
  · intro hfinds
    by_contra hnone
    rw [not_or, not_exists] at hnone
    obtain ⟨hne, hall⟩ := hnone
    have hpos : 0 < t.entries.length := List.length_pos_iff.2 hne
    have hle : ∀ j ≤ t.entries.length - 1, m (2 * j) ≤ address := by
      intro j hj
      have hj' : j < t.entries.length := by omega
      rw [h.address j hj']
      exact UInt32.not_lt.1 fun hlt => hall _ ⟨List.getElem_mem hj', hlt⟩
    have hread := (@symbolLoop_upto m t.entries.length t.entries.length 0 _ address hle
      (Nat.zero_le _) (by omega) (by omega)).1
    have hlast := hfinds.reads _ hread
    omega
  · rintro (hempty | ⟨e', he', habove⟩)
    · have htotal : t.entries.length = 0 := by rw [hempty]; rfl
      rw [htotal]
      exact ⟨nofun, fun e he => absurd he.mem (by rw [hempty]; nofun), fun _ => rfl⟩
    by_cases hbelow : ∀ e ∈ t.entries, address < e.address
    · have habove' : ∀ j < t.entries.length, address < m (2 * j) := fun j hj => by
        rw [h.address j hj]
        exact hbelow _ (List.getElem_mem hj)
      obtain ⟨hreads, hnull⟩ :=
        @symbolLoop_below m t.entries.length t.entries.length 0 address habove'
      refine ⟨hreads, fun e he => ?_, fun _ => hnull⟩
      exact absurd (hbelow e he.mem) (UInt32.not_lt.2 he.le)
    · simp only [not_forall, UInt32.not_lt] at hbelow
      obtain ⟨e, he, hle⟩ := hbelow
      exact h.finds he hle he' habove

def pairTable : SymbolTable :=
  ⟨[⟨0x100000, 0x200000⟩, ⟨0x100020, 0x200008⟩], by decide, by decide⟩

def pairSymbols (j : Nat) : UInt32 := [0x100000, 0x200000, 0x100020, 0x200008, 2].getD j 0

theorem pairTable_loaded : pairTable.Loaded pairSymbols :=
  ⟨by decide, by decide, rfl⟩

theorem symbolName_finds_first :
    pairTable.Finds 0x100004 (symbolName pairSymbols 2 0x100004) :=
  (symbolName_finds_iff pairTable pairSymbols pairTable_loaded 0x100004).2
    (.inr ⟨⟨0x100020, 0x200008⟩, by decide, by decide⟩)

/-- Inside of the last symbol the address is compared with the total, and nothing is found. -/
theorem last_symbol_lost :
    ¬∀ (t : SymbolTable) (m : Nat → UInt32), t.Loaded m → ∀ address,
      t.Finds address (symbolName m (m (2 * t.entries.length)) address) := by
  intro hall
  have hfinds := hall pairTable pairSymbols pairTable_loaded 0x100024
  exact absurd (hfinds.reads 2 (by decide)) (by decide)

end SpuriOS
