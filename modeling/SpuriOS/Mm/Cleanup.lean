import SpuriOS.Mm.Run
import Mathlib.Data.List.GetD
import Mathlib.Logic.Relation

/-! # Runs that fail

When `run` returns an error, it has given back what it took, and it returns a pid after so many
bytes as the header says. -/

namespace SpuriOS

open Relation (ReflTransGen)

/-! ## What a file delivers -/

/-- The first bytes of a file. -/
def fileOf (bytes : List Byte) (k : Nat) : Byte := bytes.getD k 0

section
variable {file file' : Nat → Byte}

theorem hasSignature_congr (h : ∀ k < 20, file k = file' k) :
    hasSignature file = hasSignature file' := by
  have hmap : (List.range 4).map file = (List.range 4).map file' :=
    List.map_congr_left fun k hk => h k (Nat.lt_trans (List.mem_range.1 hk) (by decide))
  rw [hasSignature, hasSignature, hmap]

theorem effectiveBytes_congr (h : ∀ k < 20, file k = file' k) :
    effectiveBytes file = effectiveBytes file' := by
  have hword : ∀ k < 4, headerWord file k = headerWord file' k := fun k hk =>
    Memory.le_congr fun j hj => h _ (by omega)
  rw [effectiveBytes, effectiveBytes, hword 0 (by decide), hword 1 (by decide)]

theorem effectiveBytes_lt : effectiveBytes file < 2 ^ 32 := Word32.wrap_lt _

end

section
variable {n : Nat}

theorem neededPages_pos (h : 0 < n) : 0 < neededPages n := by
  rw [neededPages, pageSize_eq]
  split <;> omega

theorem neededPages_le (h : n < 2 ^ 32) : neededPages n ≤ 2 ^ 20 := by
  rw [neededPages, pageSize_eq]
  split <;> omega

end

namespace RunFile

/-- A read of what is left of `size` bytes returns some. A state is the number of the next read, and
the bytes so far. -/
inductive Gets (file : RunFile) (size : Nat) : Nat × List Byte → Nat × List Byte → Prop
  | read {n bytes} : bytes.length < size → 0 < file.answer n (size - bytes.length) →
    Gets file size (n, bytes) (n + 1, bytes ++
      (List.range (file.answer n (size - bytes.length)).toNat).map (file.data n))

/-- The reads return `size` bytes. -/
structure Delivers (file : RunFile) (size : Nat) (z w : Nat × List Byte) : Prop where
  gets : ReflTransGen (file.Gets size) z w
  all : size ≤ w.2.length

/-- A read returns nothing, or an error, before there are `size` bytes. -/
structure Breaks (file : RunFile) (size : Nat) (z w : Nat × List Byte) : Prop where
  gets : ReflTransGen (file.Gets size) z w
  lt : w.2.length < size
  none : file.answer w.1 (size - w.2.length) ≤ 0

/-- The file has a header with the signature. -/
structure Executable (file : RunFile) (z : Nat × List Byte) : Prop where
  header : file.Delivers 20 (0, []) z
  signature : hasSignature (fileOf z.2) = true

section
variable {file : RunFile} {size : Nat} {z w w' : Nat × List Byte}

theorem Gets.unique (h : file.Gets size z w) (h' : file.Gets size z w') : w = w' := by
  cases h
  cases h'
  rfl

theorem Delivers.stuck (h : file.Delivers size z w) : ¬file.Gets size w w' := by
  rintro ⟨hlt, -⟩
  exact absurd h.all (Nat.not_le_of_lt hlt)

theorem Breaks.stuck (h : file.Breaks size z w) : ¬file.Gets size w w' := by
  rintro ⟨-, hpos⟩
  exact absurd h.none (Int.not_le.2 hpos)

/-- The reads come to one end. -/
theorem end_unique (h : ReflTransGen (file.Gets size) z w) (h' : ReflTransGen (file.Gets size) z w')
    (hw : ∀ v, ¬file.Gets size w v) (hw' : ∀ v, ¬file.Gets size w' v) : w = w' := by
  have hunique : Relator.RightUnique (file.Gets size) := fun _ _ _ => Gets.unique
  obtain h | h := ReflTransGen.total_of_right_unique hunique h h'
  · obtain heq | ⟨v, hv, -⟩ := h.cases_head
    · exact heq
    · exact (hw v hv).elim
  · obtain heq | ⟨v, hv, -⟩ := h.cases_head
    · exact heq.symm
    · exact (hw' v hv).elim

theorem Delivers.unique (h : file.Delivers size z w) (h' : file.Delivers size z w') : w = w' :=
  end_unique h.gets h'.gets (fun _ => h.stuck) fun _ => h'.stuck

theorem Delivers.not_breaks (h : file.Delivers size z w) : ¬file.Breaks size z w' := by
  intro h'
  obtain rfl := end_unique h.gets h'.gets (fun _ => h.stuck) fun _ => h'.stuck
  exact absurd h.all (Nat.not_le_of_lt h'.lt)

/-- No read returns more than it was asked for. -/
theorem Gets.length_le (hfile : file.Honest) (h : file.Gets size z w) : w.2.length ≤ size := by
  cases h with
  | @read n bytes hlt hpos =>
    have hmost := (hfile n (size - bytes.length)).2.2
    rw [List.length_append, List.length_map, List.length_range]
    omega

theorem Delivers.length_eq (hfile : file.Honest) (h : file.Delivers size z w)
    (hz : z.2.length ≤ size) : w.2.length = size := by
  refine Nat.le_antisymm ?_ h.all
  obtain rfl | ⟨v, -, hv⟩ := h.gets.cases_tail
  · exact hz
  · exact hv.length_le hfile

end

end RunFile

namespace Mm

/-! ## Pages that are lent -/

/-- Entry `i` of the directory of process `p` is new, with a table in frame `t`, and the pages from
`lo` up to `hi` in it have the frames `f`. Nothing else was taken. -/
structure Lent (s u : Mm) (p : Pid) (i t : Nat) (f : Nat → Nat) (lo hi : Nat) : Prop where
  dirs : OnlyDirs s u
  others : ∀ q ≠ p, u.procs q = s.procs q
  pde : (u.procs p).dir.pde = Function.update (s.procs p).dir.pde i (some t)
  pte : ∀ page, pdEntryFor page ≠ i → (u.procs p).dir.pte page = (s.procs p).dir.pte page
  mapped : ∀ j, lo ≤ j → j < hi → (u.procs p).dir.pte (i * 1024 + j) = mappedEntry (f j) true
  used : ∀ g, u.used g = true ↔ s.used g = true ∨ g = t ∨ ∃ j, lo ≤ j ∧ j < hi ∧ g = f j
  table : 0x100 ≤ t ∧ t < 0x400 ∧ s.used t = false
  frames : ∀ j, lo ≤ j → j < hi → 0x400 ≤ f j ∧ f j < 0x80100 ∧ s.used (f j) = false
  inj : ∀ j k, lo ≤ j → j < k → k < hi → f j ≠ f k

/-- The directories and tables are what they were, and so is the bitmap. -/
structure Restored (s u : Mm) : Prop where
  dirs : OnlyDirs s u
  pde : ∀ q, (u.procs q).dir.pde = (s.procs q).dir.pde
  word : u.word = s.word
  used : u.used = s.used

section
variable {s u : Mm} {p : Pid} {i t k n g a lo hi page : Nat} {f : Nat → Nat} {data : Nat → Byte}

theorem setPte_self {e : MmPage} : (s.setPte p page e).procs p = { s.procs p with
    dir := { (s.procs p).dir with pte := Function.update (s.procs p).dir.pte page e } } :=
  setPcb_self

theorem setPte_of_ne {q : Pid} {e : MmPage} (hq : q ≠ p) :
    (s.setPte p page e).procs q = s.procs q := setPcb_of_ne hq

theorem pdEntryFor_add (hk : k < 1024) : pdEntryFor (i * 1024 + k) = i := by
  rw [pdEntryFor]
  omega

theorem pageAfter_eq (hi : i < 1024) (hk : k < 1024) : pageAfter (i * 1024) k = i * 1024 + k := by
  rw [pageAfter, pageCount]
  omega

theorem mmVaddrForFreePdtEntry_spec (h : s.mmVaddrForFreePdtEntry p ≠ 0) :
    ∃ i, 1 ≤ i ∧ i < 1024 ∧ s.mmVaddrForFreePdtEntry p = i * 1024 ∧
      (s.procs p).dir.pde i = none := by
  rw [mmVaddrForFreePdtEntry] at h ⊢
  split at h
  · exact absurd rfl h
  next hkernel =>
    rw [if_neg hkernel]
    split at h
    next i hi =>
      have hmem := List.mem_range'_1.1 (List.mem_of_find?_eq_some hi)
      exact ⟨i, hmem.1, by omega, rfl, by simpa using List.find?_some hi⟩
    · exact absurd rfl h

/-! ### Taking -/

/-- The table. -/
theorem addTable_lent (f : Nat → Nat) (ht : 0x100 ≤ k ∧ k < 0x400 ∧ s.used k = false) :
    Lent s (({ s with used := Function.update s.used k true } : Mm).addTable p i k) p i k f
      0 0 := by
  generalize hs₁ : ({ s with used := Function.update s.used k true } : Mm) = s₁
  have hprocs : s₁.procs = s.procs := by rw [← hs₁]
  have hused : s₁.used = Function.update s.used k true := by rw [← hs₁]
  have hself : (s₁.addTable p i k).procs p = { s.procs p with dir := {
      pde := Function.update (s.procs p).dir.pde i (some k)
      pte := fun page => if pdEntryFor page = i then .zero else (s.procs p).dir.pte page } } := by
    rw [← hprocs]
    exact setPcb_self
  have hdirs : OnlyDirs s s₁ := by
    rw [← hs₁]
    exact ⟨fun _ => rfl, rfl, rfl, rfl⟩
  refine ⟨hdirs.trans setPcb_onlyDirs, fun q hq => ?_, by rw [hself], fun page hpage => ?_,
    fun j _ hj => absurd hj (Nat.not_lt_zero j), fun g => ?_, ht,
    fun j _ hj => absurd hj (Nat.not_lt_zero j), fun j l _ _ hl => absurd hl (Nat.not_lt_zero l)⟩
  · rw [← hprocs]
    exact setPcb_of_ne hq
  · rw [hself]
    exact if_neg hpage
  · change s₁.used g = true ↔ _
    rw [hused]
    rcases eq_or_ne g k with rfl | hg
    · rw [Function.update_self]
      exact iff_of_true rfl (.inr (.inl rfl))
    · rw [Function.update_of_ne hg]
      refine ⟨.inl, ?_⟩
      rintro (hs | hgt | ⟨j, -, hj, -⟩)
      · exact hs
      · exact absurd hgt hg
      · exact absurd hj (Nat.not_lt_zero j)

namespace Lent

/-- A frame that is free is mapped at the next page. -/
theorem put (h : Lent s u p i t f 0 n) (hn : n < 1024) (hlo : 0x400 ≤ g) (hhi : g < 0x80100)
    (hg : u.used g = false) :
    Lent s (({ u with used := Function.update u.used g true } : Mm).setPte p (i * 1024 + n)
      (mappedEntry g true)) p i t (Function.update f n g) 0 (n + 1) := by
  generalize hu₁ : ({ u with used := Function.update u.used g true } : Mm) = u₁
  have hprocs : u₁.procs = u.procs := by rw [← hu₁]
  have hused : u₁.used = Function.update u.used g true := by rw [← hu₁]
  have hdirs : OnlyDirs u u₁ := by
    rw [← hu₁]
    exact ⟨fun _ => rfl, rfl, rfl, rfl⟩
  have hnot : ¬(s.used g = true ∨ g = t ∨ ∃ j, 0 ≤ j ∧ j < n ∧ g = f j) := by
    rw [← h.used, hg]
    exact Bool.false_ne_true
  have hold : ∀ {j}, j < n → Function.update f n g j = f j := fun hj =>
    Function.update_of_ne (Nat.ne_of_lt hj) ..
  refine ⟨h.dirs.trans (hdirs.trans setPte_onlyDirs), fun q hq => ?_, ?_, fun page hpage => ?_,
    fun j hj0 hj => ?_, fun g' => ?_, h.table, fun j hj0 hj => ?_, fun j k hj0 hjk hk => ?_⟩
  · rw [setPte_of_ne hq, hprocs]
    exact h.others q hq
  · rw [setPte_self, hprocs]
    exact h.pde
  · rw [setPte_self, hprocs]
    dsimp only
    rw [Function.update_of_ne fun heq => hpage (by rw [heq, pdEntryFor_add hn])]
    exact h.pte page hpage
  · rw [setPte_self, hprocs]
    dsimp only
    rcases Nat.lt_succ_iff_lt_or_eq.1 hj with hlt | rfl
    · rw [hold hlt, Function.update_of_ne (by omega)]
      exact h.mapped j hj0 hlt
    · rw [Function.update_self, Function.update_self]
  · change u₁.used g' = true ↔ _
    rw [hused]
    rcases eq_or_ne g' g with rfl | hne
    · rw [Function.update_self]
      refine iff_of_true rfl (.inr (.inr ⟨n, Nat.zero_le n, n.lt_succ_self, ?_⟩))
      rw [Function.update_self]
    · rw [Function.update_of_ne hne, h.used]
      refine or_congr_right (or_congr_right ⟨?_, ?_⟩)
      · rintro ⟨j, hj0, hj, rfl⟩
        exact ⟨j, hj0, Nat.lt_succ_of_lt hj, (hold hj).symm⟩
      · rintro ⟨j, hj0, hj, rfl⟩
        rcases Nat.lt_succ_iff_lt_or_eq.1 hj with hlt | rfl
        · exact ⟨j, hj0, hlt, hold hlt⟩
        · exact absurd (Function.update_self ..) hne
  · rcases Nat.lt_succ_iff_lt_or_eq.1 hj with hlt | rfl
    · rw [hold hlt]
      exact h.frames j hj0 hlt
    · rw [Function.update_self]
      exact ⟨hlo, hhi, Bool.eq_false_iff.2 fun hs => hnot (.inl hs)⟩
  · rw [hold (by omega)]
    rcases Nat.lt_succ_iff_lt_or_eq.1 hk with hlt | rfl
    · rw [hold hlt]
      exact h.inj j k hj0 hjk hlt
    · rw [Function.update_self]
      exact fun heq => hnot (.inr (.inr ⟨j, hj0, hjk, heq.symm⟩))

/-- The bytes in the frames do not matter. -/
theorem withBytes (h : Lent s u p i t f lo hi) (byte : Nat → Nat → Byte) :
    Lent s { u with byte := byte } p i t f lo hi :=
  ⟨⟨h.dirs.pcb, h.dirs.limit, h.dirs.kernelPagetable, h.dirs.taskInit⟩, h.others, h.pde, h.pte,
    h.mapped, h.used, h.table, h.frames, h.inj⟩

/-! ### Giving back -/

theorem entry (h : Lent s u p i t f lo hi) (hk : k < 1024) :
    u.entry p (i * 1024 + k) = some ((u.procs p).dir.pte (i * 1024 + k)) := by
  rw [Mm.entry, mmPtEntryFor, pdEntryFor_add hk, h.pde, Function.update_self]
  rfl

/-- The first page is unmapped, and its frame is freed. -/
theorem freeRunPage (h : Lent s u p i t f lo hi) (hlt : lo < hi) (hhi : hi ≤ 1024) :
    ∃ u', u.freeRunPage (i * 1024 + lo) p = some u' ∧ Lent s u' p i t f (lo + 1) hi := by
  have hmapped := h.mapped lo (Nat.le_refl lo) hlt
  obtain ⟨hzone, hbelow, hfree⟩ := h.frames lo (Nat.le_refl lo) hlt
  refine ⟨(u.setPte p (i * 1024 + lo) .zero).free (f lo), ?_, ?_⟩
  · rw [Mm.freeRunPage, h.entry (by omega), hmapped]
    rfl
  generalize hu₁ : u.setPte p (i * 1024 + lo) .zero = u₁
  have hprocs : (u₁.free (f lo)).procs = u₁.procs := by
    rw [Mm.free]
    split <;> rfl
  have hself : (u₁.procs p).dir = { (u.procs p).dir with
      pte := Function.update (u.procs p).dir.pte (i * 1024 + lo) .zero } := by
    rw [← hu₁, setPte_self]
  have hdirs : OnlyDirs u₁ (u₁.free (f lo)) := by
    rw [Mm.free]
    split <;> exact ⟨fun _ => rfl, rfl, rfl, rfl⟩
  refine ⟨h.dirs.trans (OnlyDirs.trans (hu₁ ▸ setPte_onlyDirs) hdirs), fun q hq => ?_, ?_,
    fun page hpage => ?_, fun j hj hj' => ?_, fun g => ?_, h.table,
    fun j hj => h.frames j (by omega), fun j k hj => h.inj j k (by omega)⟩
  · rw [hprocs, ← hu₁, setPte_of_ne hq]
    exact h.others q hq
  · rw [hprocs, hself]
    exact h.pde
  · rw [hprocs, hself]
    dsimp only
    rw [Function.update_of_ne fun heq => hpage (by rw [heq, pdEntryFor_add (by omega)])]
    exact h.pte page hpage
  · rw [hprocs, hself]
    dsimp only
    rw [Function.update_of_ne (by omega)]
    exact h.mapped j (by omega) hj'
  · have hused : u₁.used = u.used := by rw [← hu₁]; rfl
    rw [free_used, hused, h.used]
    constructor
    · rintro ⟨hs | hgt | ⟨j, hj, hj', rfl⟩, hne⟩
      · exact .inl hs
      · exact .inr (.inl hgt)
      · refine .inr (.inr ⟨j, ?_, hj', rfl⟩)
        rcases Nat.eq_or_lt_of_le hj with rfl | hlt
        · exact (hne ⟨⟨by omega, hbelow⟩, rfl⟩).elim
        · exact hlt
    · rintro (hs | rfl | ⟨j, hj, hj', rfl⟩)
      · refine ⟨.inl hs, fun hc => ?_⟩
        rw [hc.2, hfree] at hs
        exact Bool.false_ne_true hs
      · obtain ⟨-, hlt, -⟩ := h.table
        exact ⟨.inr (.inl rfl), fun hc => by omega⟩
      · exact ⟨.inr (.inr ⟨j, by omega, hj', rfl⟩), fun hc =>
          h.inj lo j (Nat.le_refl lo) hj hj' hc.2.symm⟩

/-- All pages are unmapped, one after the other. -/
theorem freePages (h : Lent s u p i t f 0 n) (hn : n ≤ 1024) (hi : i < 1024) :
    ∃ u', (List.range n).foldlM
      (fun mm k => mm.freeRunPage (pageAfter (i * 1024) k) p) u = some u' ∧
      Lent s u' p i t f n n := by
  refine Loop.foldlM_range_total (P := fun k u' => Lent s u' p i t f k n) (fun k u' hk hu' => ?_) h
  rw [pageAfter_eq hi (by omega)]
  exact hu'.freeRunPage hk hn

/-- Last goes the table. -/
theorem mmFreePageTableFor (h : Lent s u p i t f n n) (hi : i ≠ 0)
    (hpde : (s.procs p).dir.pde i = none) :
    s.Restored (u.mmFreePageTableFor (i * 1024) p) := by
  have hentry : pdEntryFor (i * 1024) = i := Nat.mul_div_cancel i (by decide)
  have htable : ((u.procs p).dir.pde i).getD 0 = t := by
    rw [h.pde, Function.update_self]
    rfl
  have hpde' : Function.update (u.procs p).dir.pde i none = (s.procs p).dir.pde := by
    rw [h.pde, Function.update_idem, ← hpde, Function.update_eq_self]
  have hprocs : (u.free t).procs = u.procs := by
    rw [Mm.free]
    split <;> rfl
  have hfree : OnlyDirs u (u.free t) := by
    rw [Mm.free]
    split <;> exact ⟨fun _ => rfl, rfl, rfl, rfl⟩
  have heq : u.mmFreePageTableFor (i * 1024) p = (u.free t).setPcb p { (u.free t).procs p with
      dir := { (u.procs p).dir with pde := (s.procs p).dir.pde } } := by
    rw [Mm.mmFreePageTableFor, hentry, if_neg hi, htable, hpde', hprocs]
  rw [heq]
  have hothers : ∀ q ≠ p, ((u.free t).setPcb p { (u.free t).procs p with
      dir := { (u.procs p).dir with pde := (s.procs p).dir.pde } }).procs q = s.procs q := by
    intro q hq
    rw [setPcb_of_ne hq, hprocs]
    exact h.others q hq
  refine ⟨h.dirs.trans (hfree.trans setPcb_onlyDirs), fun q => ?_, ?_, ?_⟩
  · rcases eq_or_ne q p with rfl | hq
    · rw [setPcb_self]
    · rw [hothers q hq]
  · funext q page
    rcases eq_or_ne q p with rfl | hq
    · rw [word, Mm.entry, mmPtEntryFor, setPcb_self, word, Mm.entry, mmPtEntryFor]
      dsimp only
      rcases eq_or_ne (pdEntryFor page) i with rfl | hne
      · rw [hpde]
        rfl
      · rw [h.pte page hne]
    · exact congrFun (word_congr (congrArg MmPcb.dir (hothers q hq))) page
  · funext g
    have hiff : (u.free t).used g = true ↔ s.used g = true := by
      obtain ⟨hlo, hhi, hno⟩ := h.table
      rw [free_used, h.used]
      constructor
      · rintro ⟨hs | rfl | ⟨j, hj, hj', -⟩, hne⟩
        · exact hs
        · exact (hne ⟨⟨hlo, by omega⟩, rfl⟩).elim
        · omega
      · refine fun hs => ⟨.inl hs, fun hc => ?_⟩
        rw [hc.2, hno] at hs
        exact Bool.false_ne_true hs
    exact Bool.eq_iff_iff.2 hiff

end Lent

/-! ### How many frames there are -/

theorem memSeek_none (h : s.freeFrames lo hi = 0) : s.memSeek lo hi = none := by
  rw [memSeek, List.find?_eq_none.2, Option.map_none]
  rw [freeFrames, List.countP_eq_zero] at h
  exact h

/-- The first frame is found, wherever the search would end. -/
theorem memSeek_below {b : Nat} (hb : b ≤ hi) (h : 0 < s.freeFrames lo b) :
    s.memSeek lo hi = s.memSeek lo b := by
  obtain ⟨f, u, hu⟩ := memSeek_total h
  obtain ⟨hlo, hlt, -⟩ := memSeek_spec hu
  have hrange : List.range' lo (hi - lo) = List.range' lo (b - lo) ++ List.range' b (hi - b) := by
    have hmid : lo + (b - lo) = b := by omega
    have hsum : hi - lo = (b - lo) + (hi - b) := by omega
    rw [hsum, ← List.range'_append_1, hmid]
  obtain ⟨g, hg, -⟩ := Option.map_eq_some_iff.1 hu
  rw [memSeek, memSeek, hrange, List.find?_append, hg, Option.some_or]

theorem freeFrames_take_of_mem (hlo : lo ≤ g) (hhi : g < hi) (hg : s.used g = false) :
    s.freeFrames lo hi =
      ({ s with used := Function.update s.used g true } : Mm).freeFrames lo hi + 1 := by
  refine Counting.countP_insert List.nodup_range' (List.mem_range'_1.2 ⟨hlo, by omega⟩) ?_ ?_
    fun b _ hb => ?_
  · dsimp only
    rw [Function.update_self]
    rfl
  · rw [hg]
    rfl
  · dsimp only
    rw [Function.update_of_ne hb]

/-- The frames of users, and those of them that `mm_mem_free` can free. -/
def userFrames (s : Mm) : Nat := s.freeFrames 0x400 s.limit
def freeableFrames (s : Mm) : Nat := s.freeFrames 0x400 (min s.limit 0x80100)

theorem alloc_freeable (h : 0 < s.freeableFrames) : ∃ g u, s.alloc = some (g, u) ∧
    0x400 ≤ g ∧ g < 0x80100 ∧ s.used g = false ∧
    u = { s with used := Function.update s.used g true } ∧
    s.userFrames = u.userFrames + 1 ∧ s.freeableFrames = u.freeableFrames + 1 := by
  have hle : min s.limit 0x80100 ≤ s.limit := Nat.min_le_left ..
  obtain ⟨g, u, hu⟩ := memSeek_total h
  obtain ⟨hlo, hhi, hg, rfl⟩ := memSeek_spec hu
  rw [← memSeek_below hle h] at hu
  exact ⟨g, _, hu, hlo, hhi.trans_le (Nat.min_le_right ..), hg, rfl,
    freeFrames_take_of_mem hlo (hhi.trans_le hle) hg, freeFrames_take_of_mem hlo hhi hg⟩

theorem alloc_none (h : s.userFrames = 0) : s.alloc = none := memSeek_none h

/-- What is lent tells how many frames are left. -/
theorem Lent.frames_left {u' : Mm} (h : Lent s u p i t f lo hi) (h' : Lent s u' p i t f lo hi) :
    u'.userFrames = u.userFrames ∧ u'.freeableFrames = u.freeableFrames := by
  have hused : u'.used = u.used := by
    funext g
    exact Bool.eq_iff_iff.2 ((h'.used g).trans (h.used g).symm)
  have hlimit : u'.limit = u.limit := h'.dirs.limit.trans h.dirs.limit.symm
  rw [userFrames, userFrames, freeableFrames, freeableFrames, freeFrames, freeFrames, freeFrames,
    freeFrames, hused, hlimit]
  exact ⟨rfl, rfl⟩

theorem mmMapFrame_of_table (hpage : pdEntryFor page ≠ 0) (h : s.HasTable p (pdEntryFor page)) :
    s.mmMapFrame g page p .user = some (s.setPte p page (mappedEntry g true)) := by
  obtain ⟨t, ht⟩ := Option.ne_none_iff_exists'.1 h
  rw [mmMapFrame, needTable, if_neg hpage, ht]
  rfl

/-- The first page, with the table. -/
theorem firstPage (hi : i ≠ 0) (hpde : (s.procs p).dir.pde i = none)
    (hkernel : 0 < s.freeFrames 0x100 0x400) (huser : 0 < s.freeableFrames) :
    ∃ g u₁ u t, s.alloc = some (g, u₁) ∧ u₁.mmMapFrame g (i * 1024) p .user = some u ∧
      Lent s u p i t (fun _ => g) 0 1 ∧
      s.userFrames = u.userFrames + 1 ∧ s.freeableFrames = u.freeableFrames + 1 := by
  obtain ⟨g, u₁, hu₁, hlo, hhi, hg, hs₁, hcount, hcount'⟩ := alloc_freeable huser
  have hentry : pdEntryFor (i * 1024) = i := Nat.mul_div_cancel i (by decide)
  have hprocs : u₁.procs = s.procs := by rw [hs₁]
  have hkernel₁ : 0 < u₁.freeFrames 0x100 0x400 := by
    rw [hs₁, freeFrames_take_of_not (.inr hlo)]
    exact hkernel
  obtain ⟨t, u₂, h₂⟩ := memSeek_total hkernel₁
  obtain ⟨htlo, hthi, ht, hs₂⟩ := memSeek_spec h₂
  have hne : g ≠ t := by omega
  have hst : s.used t = false := by
    rw [hs₁] at ht
    exact (Function.update_of_ne hne.symm ..).symm.trans ht
  have hneed : u₁.needTable p (i * 1024) = some (u₂.addTable p i t) := by
    have hk : u₁.kalloc = some (t, u₂) := h₂
    rw [needTable, hentry, if_neg hi, hprocs, hpde]
    dsimp only
    rw [hk]
    rfl
  -- it is the same whether the table or the page comes first
  let v := ({ s with used := Function.update s.used t true } : Mm).addTable p i t
  have hsame : u₂.addTable p i t = { v with used := Function.update v.used g true } := by
    rw [hs₂, hs₁]
    dsimp only
    rw [Function.update_comm hne]
    rfl
  have hvg : v.used g = false := (Function.update_of_ne hne ..).trans hg
  have hput := (addTable_lent (p := p) (i := i) (fun _ => g) ⟨htlo, hthi, hst⟩).put
    (by decide) hlo hhi hvg
  rw [Function.update_eq_self, Nat.add_zero, ← hsame] at hput
  have hzone : ∀ b, u₂.freeFrames 0x400 b = u₁.freeFrames 0x400 b := by
    intro b
    rw [hs₂]
    exact freeFrames_take_of_not (.inl hthi)
  have hlimit : u₂.limit = u₁.limit := by rw [hs₂]
  refine ⟨g, u₁, _, t, hu₁, ?_, hput, ?_, ?_⟩
  · rw [mmMapFrame, hneed]
    rfl
  · rw [hcount, userFrames, ← hzone, ← hlimit]
    rfl
  · rw [hcount', freeableFrames, ← hzone, ← hlimit]
    rfl

/-- The pages after the first: as many as are needed, or as there are frames. -/
theorem mapPages_total (hi : 1 ≤ i) (hi' : i < 1024) (h : Lent s u p i t f 0 (k + 1))
    (hroom : k + 1 + min n u.userFrames ≤ 1024) (hfree : min n u.userFrames ≤ u.freeableFrames) :
    ∃ f' u', mapPages (i * 1024) p n k u =
        some (decide (n ≤ u.userFrames), k + min n u.userFrames, u') ∧
      Lent s u' p i t f' 0 (k + min n u.userFrames + 1) := by
  induction n generalizing k u f with
  | zero =>
    rw [Nat.zero_min, Nat.add_zero, decide_eq_true (Nat.zero_le _)]
    exact ⟨f, u, rfl, h⟩
  | succ n ih =>
    rcases Nat.eq_zero_or_pos u.userFrames with h0 | hpos
    · have hnone : mapPages (i * 1024) p (n + 1) k u = some (false, k, u) := by
        rw [mapPages, alloc_none h0]
        rfl
      rw [h0, Nat.min_zero, Nat.add_zero, decide_eq_false (Nat.not_succ_le_zero n)]
      exact ⟨f, u, hnone, h⟩
    obtain ⟨g, u₁, hu₁, hlo, hhi, hg, hs₁, hcount, hcount'⟩ :=
      alloc_freeable (s := u) (by omega)
    have hk : k + 1 < 1024 := by omega
    have hentry : pdEntryFor (i * 1024 + (k + 1)) = i := pdEntryFor_add hk
    have htable : u₁.HasTable p (pdEntryFor (i * 1024 + (k + 1))) := by
      rw [hentry, HasTable, hs₁]
      dsimp only
      rw [h.pde, Function.update_self]
      exact Option.some_ne_none _
    have hmap : u₁.mmMapFrame g (i * 1024 + (k + 1)) p .user = some (u₁.setPte p
        (i * 1024 + (k + 1)) (mappedEntry g true)) :=
      mmMapFrame_of_table (by omega) htable
    have hput := h.put hk hlo hhi hg
    rw [← hs₁] at hput
    have hcount₂ : (u₁.setPte p (i * 1024 + (k + 1)) (mappedEntry g true)).userFrames =
        u₁.userFrames := rfl
    have hcount₂' : (u₁.setPte p (i * 1024 + (k + 1)) (mappedEntry g true)).freeableFrames =
        u₁.freeableFrames := rfl
    obtain ⟨f', u', hu', hlent⟩ := ih hput (by omega) (by omega)
    rw [hcount₂] at hu' hlent
    have hmin : k + 1 + min n u₁.userFrames = k + min (n + 1) u.userFrames := by omega
    have hall : decide (n ≤ u₁.userFrames) = decide (n + 1 ≤ u.userFrames) := by
      rw [hcount]
      exact decide_eq_decide.2 Nat.succ_le_succ_iff.symm
    rw [hmin] at hu' hlent
    refine ⟨f', u', ?_, hlent⟩
    rw [mapPages, hu₁, Option.elim_some]
    dsimp only
    rw [pageAfter_eq hi' hk, hmap, Option.bind_some, hu', hall]

end

end Mm

/-! ## The loops that read -/

section
variable {file : RunFile} {p : Pid} {base count fd size n : Nat} {x : Reading}
  {z : Nat × List Byte} {bytes : List Byte} {r : Int} {P : List Byte → Mm → Prop}
  {table : DevTable DevFn (List (DevFn × Nat))}

/-- The variables of a loop when the bytes of `z` were read, to the address `base`; `count` had been
read before. -/
structure Reading.Follows (x : Reading) (base count : Nat) (z : Nat × List Byte) : Prop where
  n : x.n = z.1
  readed : x.readed = z.2.length
  copyPointer : x.copyPointer = Word32.wrap (base + z.2.length)
  got : x.got = count + z.2.length

theorem toUint32_of_nonneg (h : 0 ≤ r) (hr : r < 2 ^ 31) : toUint32 r = r.toNat := by
  rw [toUint32]
  omega

theorem Reading.Follows.next (hx : x.Follows base count (n, bytes)) (hsize : size < 2 ^ 32)
    (hlt : bytes.length < size) (hpos : 0 < r) (hr : r < 2 ^ 31)
    (hmost : r ≤ (size - bytes.length : Nat)) : (x.next file p r).Follows base count
      (n + 1, bytes ++ (List.range r.toNat).map (file.data n)) := by
  have hlen : (bytes ++ (List.range r.toNat).map (file.data n)).length =
      bytes.length + r.toNat := by
    rw [List.length_append, List.length_map, List.length_range]
  have hword := toUint32_of_nonneg (Int.le_of_lt hpos) hr
  obtain ⟨hn, hreaded, hpointer, hgot⟩ := hx
  dsimp only at hn hreaded hpointer hgot
  refine ⟨?_, ?_, ?_, ?_⟩
  · rw [Reading.next, hn]
  · rw [Reading.next, hlen, hreaded, hword, Word32.add_of_lt (by omega)]
  · rw [Reading.next, hlen, hpointer, hword]
    simp only [Word32.add, Word32.wrap]
    omega
  · rw [Reading.next, hlen, hgot, Nat.add_assoc]

/-- A loop that reads comes to an end, in time. `P` is what holds of the bytes and the memory. -/
theorem readLoop_total (hfile : file.Honest) (hsize : size < 2 ^ 32) (hfd : fd ≤ maxFd)
    (hopen : table.devices (cell p fd) ≠ none)
    (hP : ∀ n bytes mm, bytes.length < size → 0 < file.answer n (size - bytes.length) →
      P bytes mm → P (bytes ++ (List.range (file.answer n (size - bytes.length)).toNat).map
        (file.data n)) (mm.storeBytes p (Word32.wrap (base + bytes.length)) (file.data n)
          (file.answer n (size - bytes.length)).toNat))
    (hx : x.Follows base count z) (hmm : P z.2 x.mm) {fuel : Nat}
    (hfuel : size - z.2.length < fuel)
    (hneg : ∀ w, file.Breaks size z w → 0 ≤ file.answer w.1 (size - w.2.length)) :
    ∃ all y w, Loop.run (readRound file p fd size table) fuel x = some (all, y) ∧
      y.Follows base count w ∧ P w.2 y.mm ∧
      (all = true ∧ file.Delivers size z w ∨ all = false ∧ file.Breaks size z w) := by
  induction fuel generalizing x z with
  | zero => omega
  | succ fuel ih =>
    obtain ⟨n, bytes⟩ := z
    have hreaded : x.readed = bytes.length := hx.readed
    have hless : size - bytes.length < fuel + 1 := hfuel
    by_cases hlt : bytes.length < size
    · have hread : readFd file p fd x.n (Word32.sub size x.readed) table =
          file.answer n (size - bytes.length) := by
        obtain ⟨d, hd⟩ := Option.ne_none_iff_exists'.1 hopen
        have hn : x.n = n := hx.n
        rw [readFd, if_neg (Nat.not_lt.2 hfd), hd, hn, hreaded,
          Word32.sub_of_le (Nat.le_of_lt hlt) hsize]
      have hround : readRound file p fd size table x =
          if 0 < toUint32 (file.answer n (size - bytes.length))
          then some (.again (x.next file p (file.answer n (size - bytes.length))))
          else some (.done (false, x)) := by
        rw [readRound, if_pos (hreaded ▸ hlt), hread]
      obtain ⟨hlow, hhigh, hmost⟩ := hfile n (size - bytes.length)
      by_cases hpos : 0 < file.answer n (size - bytes.length)
      · rw [if_pos (by rw [toUint32_of_nonneg (by omega) hhigh]; omega)] at hround
        have hgets : file.Gets size (n, bytes) _ := .read hlt hpos
        have hmm' : P (bytes ++ (List.range (file.answer n (size - bytes.length)).toNat).map
            (file.data n)) (x.next file p (file.answer n (size - bytes.length))).mm := by
          have hn : x.n = n := hx.n
          have hpointer : x.copyPointer = Word32.wrap (base + bytes.length) := hx.copyPointer
          rw [Reading.next, hn, hpointer]
          exact hP n bytes x.mm hlt hpos hmm
        obtain ⟨all, y, w, hrun, hy, hPw, hend⟩ := ih (hx.next hsize hlt hpos hhigh hmost) hmm'
          (by rw [List.length_append, List.length_map, List.length_range]; omega)
          fun w hw => hneg w ⟨.head hgets hw.gets, hw.lt, hw.none⟩
        refine ⟨all, y, w, ?_, hy, hPw, hend.imp ?_ ?_⟩
        · rw [Loop.run_again hround, hrun]
        · exact fun ⟨hall, hw⟩ => ⟨hall, .head hgets hw.gets, hw.all⟩
        · exact fun ⟨hall, hw⟩ => ⟨hall, .head hgets hw.gets, hw.lt, hw.none⟩
      · have hbreaks : file.Breaks size (n, bytes) (n, bytes) := ⟨.refl, hlt, Int.not_lt.1 hpos⟩
        have hzero := hneg _ hbreaks
        dsimp only at hzero
        rw [if_neg (by rw [toUint32_of_nonneg hzero hhigh]; omega)] at hround
        exact ⟨false, x, (n, bytes), Loop.run_done hround, hx, hmm, .inr ⟨rfl, hbreaks⟩⟩
    · have hround : readRound file p fd size table x = some (.done (true, x)) := by
        rw [readRound, hreaded, if_neg hlt]
      exact ⟨true, x, (n, bytes), Loop.run_done hround, hx, hmm,
        .inl ⟨rfl, .refl, Nat.le_of_not_lt hlt⟩⟩

end

namespace Mm

section
variable {s u : Mm} {p : Pid} {page a k n vaddr : Nat} {data : Nat → Byte}

/-- Bytes are stored in frames and nowhere else. -/
theorem storeBytes_eq : ∃ byte, s.storeBytes p vaddr data n = { s with byte := byte } := by
  induction n with
  | zero => exact ⟨s.byte, rfl⟩
  | succ n ih =>
    obtain ⟨byte, hbyte⟩ := ih
    rw [storeBytes, hbyte]
    exact ⟨_, rfl⟩

theorem bytesAt_eq (hk : k < pageSize) : s.bytesAt p page k = s.read p page k := by
  rw [pageSize_eq] at hk
  have hdiv : (page * pageSize + k) / pageSize = page := by
    rw [pageSize_eq]
    omega
  have hmod : (page * pageSize + k) % pageSize = k := by
    rw [pageSize_eq]
    omega
  rw [bytesAt, hdiv, hmod]

/-- Bytes that go to one page are read there. -/
theorem bytesAt_storeBytes (hpage : page < pageCount) (hn : a + n ≤ pageSize) (hk : k < pageSize) :
    (s.storeBytes p (page * pageSize + a) data n).bytesAt p page k =
      if a ≤ k ∧ k < a + n then data (k - a) else s.bytesAt p page k := by
  induction n with
  | zero => exact (if_neg (by omega)).symm
  | succ n ih =>
    have hcount : pageCount = 0x100000 := rfl
    have hold := ih (by omega)
    rw [pageSize_eq] at hn
    have haddr : Word32.add (page * pageSize + a) n = page * pageSize + (a + n) := by
      rw [Word32.add_of_lt (by rw [pageSize_eq]; omega), Nat.add_assoc]
    have hdiv : (page * pageSize + (a + n)) / pageSize = page := by
      rw [pageSize_eq]
      omega
    have hmod : (page * pageSize + (a + n)) % pageSize = a + n := by
      rw [pageSize_eq]
      omega
    rw [bytesAt_eq hk] at hold ⊢
    rw [storeBytes, haddr, hdiv, hmod, read_store]
    rcases eq_or_ne k (a + n) with rfl | hne
    · rw [if_pos ⟨rfl, rfl⟩, if_pos (by omega), Nat.add_sub_cancel_left]
    · rw [if_neg fun hc => hne hc.2, hold]
      exact if_congr (by omega) rfl rfl

end

end Mm

/-! ## Descriptors -/

section
variable {d fd : Nat} {t : DevTable DevFn (List (DevFn × Nat))}

theorem deviceDescriptor_free (h : ∃ fd < maxFd, t.devices (cell t.curPid fd) = none) :
    ∃ fd u, deviceDescriptor d t = (fd, u) ∧ fd < maxFd ∧ t.devices (cell t.curPid fd) = none ∧
      u.curPid = t.curPid ∧ u.devices = Function.update t.devices (cell t.curPid fd) (some d) ∧
      0 < (u.objects d).refcount := by
  obtain ⟨fd, hfd, hnone⟩ := h
  have hfind := List.find?_isSome (p := fun fd => decide (t.devices (cell t.curPid fd) = none)).2
    ⟨fd, List.mem_range.2 hfd, decide_eq_true hnone⟩
  obtain ⟨g, hg⟩ := Option.isSome_iff_exists.1 hfind
  have hfirst : deviceDescriptor d t = (g, (t.setCell (cell t.curPid g) (some d)).setRefcount d
      ((t.objects d).refcount + 1)) := by
    rw [deviceDescriptor, hg]
  refine ⟨g, _, hfirst, List.mem_range.1 (List.mem_of_find?_eq_some hg),
    by simpa using List.find?_some hg, rfl, rfl, ?_⟩
  rw [DevTable.setRefcount]
  dsimp only
  rw [Function.update_self]
  exact Nat.succ_pos _

theorem close_restores (hfd : fd < maxFd) (h : t.devices (cell t.curPid fd) = some d)
    (hn : 0 < (t.objects d).refcount) : ∃ r u, close flushCalls fd t = .ret r u ∧
      u.devices = Function.update t.devices (cell t.curPid fd) none := by
  have hrange : ¬((fd : Int) < 0 ∨ (fd : Int) > maxFd) := by omega
  obtain ⟨n, hn⟩ := Nat.exists_eq_succ_of_ne_zero (Nat.ne_of_gt hn)
  simp only [close, if_neg hrange, DevTable.touch, Int.toNat_natCast, h, DevTable.setCell,
    DevTable.setRefcount, Function.update_self, hn, Nat.succ_ne_zero, if_false, Nat.succ_sub_one]
  rcases n with _ | n
  · rcases hf : (t.objects d).flush with _ | f
    · exact ⟨_, _, rfl, rfl⟩
    · exact ⟨_, _, rfl, rfl⟩
  · exact ⟨_, _, rfl, rfl⟩

end

namespace RunSystem

/-! ## What a run promises -/

/-- The directories and tables, the bitmap and the descriptors are what they were, and so are the
processes. -/
structure Restored (s u : RunSystem) : Prop where
  mm : s.mm.Restored u.mm
  devices : u.table.devices = s.table.devices

/-- `run` returns an error, and all is as before. -/
def Fails (fuel : Nat) (file : RunFile) (p : Pid) (s : RunSystem) (code : Int) : Prop :=
  ∃ u, run fuel file p s = some (-code, u) ∧ s.Restored u

/-- The file is opened, and there are frames for its first page. -/
structure Starts (file : RunFile) (s : RunSystem) : Prop where
  opened : file.dev ≠ none
  user : 0 < s.mm.userFrames
  kernel : 0 < s.mm.freeFrames 0x100 0x400

/-- The pages of the file can be mapped. -/
structure Mappable (file : RunFile) (s : RunSystem) (z : Nat × List Byte) : Prop where
  starts : s.Starts file
  executable : file.Executable z
  pages : neededPages (effectiveBytes (fileOf z.2)) ≤ s.mm.userFrames

/-- What is said of a run. The process that is loaded takes frames for its stacks and its pages. -/
structure RunsCleanly (fuel : Nat) (file : RunFile) (p : Pid) (s : RunSystem) : Prop where
  opening : file.dev = none → s.Fails fuel file p runErrorOpening
  first : file.dev ≠ none → s.mm.userFrames = 0 ∨ s.mm.freeFrames 0x100 0x400 = 0 →
    s.Fails fuel file p runUnavailableMemory
  header : ∀ z, s.Starts file → file.Breaks 20 (0, []) z → s.Fails fuel file p runErrorReading
  signature : ∀ z, s.Starts file → file.Delivers 20 (0, []) z →
    hasSignature (fileOf z.2) = false → s.Fails fuel file p runInvalidExecutable
  frames : ∀ z, s.Starts file → file.Executable z →
    s.mm.userFrames < neededPages (effectiveBytes (fileOf z.2)) →
    s.Fails fuel file p runUnavailableMemory
  image : ∀ z w, s.Mappable file z → file.Breaks (effectiveBytes (fileOf z.2)) z w →
    s.Fails fuel file p runErrorReading
  load : ∀ z w, s.Mappable file z → file.Delivers (effectiveBytes (fileOf z.2)) z w →
    s.mm.userFrames < neededPages (effectiveBytes (fileOf z.2)) + 2 +
      dataPagesNeededFor (headerImage (fileOf z.2)) → s.Fails fuel file p runUnavailableMemory
  pid : ∀ r u, run fuel file p s = some (r, u) → 0 ≤ r → ∃ z w, file.Executable z ∧
    file.Delivers (effectiveBytes (fileOf z.2)) z w ∧
    u.got = s.got + effectiveBytes (fileOf z.2)

/-- A run that does without what the code does not check: a descriptor and an entry of the directory
are free, there are frames for the first page, no error is returned by a read, and the file is not
smaller than its header, nor larger than a page table or than the frames can hold in the end. -/
structure Sound (file : RunFile) (p : Pid) (s : RunSystem) : Prop where
  descriptor : ∃ fd < maxFd, s.table.devices (cell p fd) = none
  entry : s.mm.mmVaddrForFreePdtEntry p ≠ 0
  kernel : 0 < s.mm.freeFrames 0x100 0x400
  user : 0 < s.mm.freeableFrames
  header : ∀ z, file.Breaks 20 (0, []) z → 0 ≤ file.answer z.1 (20 - z.2.length)
  size : ∀ z, file.Executable z → 20 ≤ effectiveBytes (fileOf z.2)
  pages : ∀ z, file.Executable z →
    min (neededPages (effectiveBytes (fileOf z.2))) s.mm.userFrames ≤ min 1024 s.mm.freeableFrames
  image : ∀ z w, s.Mappable file z → file.Breaks (effectiveBytes (fileOf z.2)) z w →
    0 ≤ file.answer w.1 (effectiveBytes (fileOf z.2) - w.2.length)
  load : ∀ z w, s.Mappable file z → file.Delivers (effectiveBytes (fileOf z.2)) z w →
    neededPages (effectiveBytes (fileOf z.2)) + 2 +
      dataPagesNeededFor (headerImage (fileOf z.2)) ≤ s.mm.userFrames

section
variable {fuel d fd i t n got : Nat} {file : RunFile} {p : Pid} {s : RunSystem} {mm : Mm}
  {f : Nat → Nat} {r : Int} {table : DevTable DevFn (List (DevFn × Nat))}

/-- The clean-up. -/
theorem finish_restores (hlent : s.mm.Lent mm p i t f 0 n) (hi : i ≠ 0) (hi' : i < 1024)
    (hn : n ≤ 1024) (hpde : (s.mm.procs p).dir.pde i = none) (hfd : fd < maxFd)
    (hfree : s.table.devices (cell p fd) = none)
    (htable : table.devices = Function.update s.table.devices (cell p fd) (some d))
    (href : 0 < (table.objects d).refcount) :
    ∃ u, finish (i * 1024) n fd p r ⟨mm, table, got⟩ = some (r, u) ∧ s.Restored u := by
  obtain ⟨mm', hpages, hlent'⟩ := hlent.freePages hn hi'
  obtain ⟨c, table', hclose, hdev⟩ := close_restores (t := { table with curPid := p }) hfd
    (by dsimp only; rw [htable, Function.update_self]) href
  refine ⟨⟨mm'.mmFreePageTableFor (i * 1024) p, table', got⟩, ?_,
    hlent'.mmFreePageTableFor hi hpde, ?_⟩
  · rw [finish, freeRunResources]
    dsimp only
    rw [hpages, Option.bind_eq_bind, Option.bind_some, hclose]
    rfl
  · dsimp only
    rw [hdev, htable]
    dsimp only
    rw [Function.update_idem, ← hfree, Function.update_eq_self]

theorem finish_got {page count : Nat} {u : RunSystem} {r' : Int}
    (h : finish page count fd p r s = some (r', u)) : u.got = s.got := by
  obtain ⟨u', hu', heq⟩ := Option.map_eq_some_iff.1 h
  cases heq
  rw [freeRunResources, Option.bind_eq_bind, Option.bind_eq_some_iff] at hu'
  obtain ⟨mm, -, hu'⟩ := hu'
  dsimp only at hu'
  split at hu'
  · cases hu'
  · cases hu'
    rfl

/-- The ends of a run that does without what is not checked. -/
inductive Ends (fuel : Nat) (file : RunFile) (p : Pid) (s : RunSystem) : Prop
  | header {z} : file.Breaks 20 (0, []) z → s.Fails fuel file p runErrorReading → Ends fuel file p s
  | signature {z} : file.Delivers 20 (0, []) z → hasSignature (fileOf z.2) = false →
    s.Fails fuel file p runInvalidExecutable → Ends fuel file p s
  | frames {z} : file.Executable z →
    s.mm.userFrames < neededPages (effectiveBytes (fileOf z.2)) →
    s.Fails fuel file p runUnavailableMemory → Ends fuel file p s
  | image {z w} : s.Mappable file z → file.Breaks (effectiveBytes (fileOf z.2)) z w →
    s.Fails fuel file p runErrorReading → Ends fuel file p s
  | loads {z w} : s.Mappable file z → file.Delivers (effectiveBytes (fileOf z.2)) z w →
    (∀ r u, run fuel file p s = some (r, u) → u.got = s.got + effectiveBytes (fileOf z.2)) →
    Ends fuel file p s

/-- What holds of the memory while the header is read. -/
def HeaderAt (s : Mm) (p : Pid) (i t : Nat) (f : Nat → Nat) (bytes : List Byte) (mm : Mm) : Prop :=
  s.Lent mm p i t f 0 1 ∧ bytes.length ≤ 20 ∧
    ∀ k < bytes.length, mm.bytesAt p (i * 1024) k = fileOf bytes k

theorem HeaderAt.read {s : Mm} {bytes : List Byte} {r : Nat} {data : Nat → Byte} (hi : i < 1024)
    (h : HeaderAt s p i t f bytes mm) (hlen : bytes.length + r ≤ 20) :
    HeaderAt s p i t f (bytes ++ (List.range r).map data)
      (mm.storeBytes p (Word32.wrap (i * 1024 * pageSize + bytes.length)) data r) := by
  obtain ⟨hlent, -, hbytes⟩ := h
  have hlt : i * 1024 * pageSize + bytes.length < 2 ^ 32 := by
    rw [pageSize_eq]
    omega
  have hnum : pageSize = 4096 := pageSize_eq
  have hpage : i * 1024 < pageCount := by
    rw [pageCount]
    omega
  rw [Word32.wrap_of_lt hlt]
  refine ⟨?_, by simpa using hlen, fun k hk => ?_⟩
  · obtain ⟨byte, hbyte⟩ := @Mm.storeBytes_eq mm p r (i * 1024 * pageSize + bytes.length) data
    rw [hbyte]
    exact hlent.withBytes byte
  · rw [List.length_append, List.length_map, List.length_range] at hk
    rw [Mm.bytesAt_storeBytes hpage (by omega) (by omega)]
    split
    next hin =>
      rw [fileOf, List.getD_append_right _ _ _ _ hin.1, List.getD_eq_getElem _ _ (by simp; omega),
        List.getElem_map, List.getElem_range]
    next hout =>
      rw [hbytes k (by omega), fileOf, fileOf, List.getD_append _ _ _ _ (by omega)]

theorem run_some (hdev : file.dev = some d)
    (h : deviceDescriptor d { s.table with curPid := p } = (fd, table)) :
    run fuel file p s = runOpened fuel file p fd { s with table } := by
  simp only [run, hdev, h]

theorem runOpened_some {g page : Nat} {u : Mm} (halloc : s.mm.alloc = some (g, u))
    (hpage : s.mm.mmVaddrForFreePdtEntry p = page) (hmap : u.mmMapFrame g page p .user = some mm) :
    s.runOpened fuel file p fd = s.runHeader fuel file p page fd mm := by
  rw [runOpened, halloc, hpage, Option.elim_some]
  dsimp only
  rw [hmap, Option.bind_some]

theorem runHeader_some {page : Nat} {x y : Reading} {all : Bool}
    (hx : x = ⟨0, 0, page * pageSize, s.got, mm⟩)
    (h : Loop.run (readRound file p fd 20 s.table) fuel x = some (all, y)) :
    s.runHeader fuel file p page fd mm = if all = false
      then finish page 1 fd p (-runErrorReading) { s with mm := y.mm, got := y.got }
      else s.runImage fuel file p page fd y := by
  rw [runHeader, ← hx, h, Option.bind_eq_bind, Option.bind_some]

section
variable {page count k bytes : Nat} {x : Reading}

theorem runImage_unsigned (h : hasSignature (x.mm.bytesAt p page) = false) :
    s.runImage fuel file p page fd x =
      finish page 1 fd p (-runInvalidExecutable) { s with mm := x.mm, got := x.got } := by
  rw [runImage, if_pos h]

theorem runImage_unmapped (h : hasSignature (x.mm.bytesAt p page) = true)
    (hcount : Word32.sub (neededPages (effectiveBytes (x.mm.bytesAt p page))) 1 = count)
    (hmap : Mm.mapPages page p count 0 x.mm = some (false, k, mm)) :
    s.runImage fuel file p page fd x =
      finish page (Word32.add k 1) fd p (-runUnavailableMemory) { s with mm, got := x.got } := by
  rw [runImage, if_neg (by rw [h]; exact Ne.symm Bool.false_ne_true)]
  dsimp only
  rw [hcount, hmap, Option.bind_eq_bind, Option.bind_some]
  dsimp only
  rw [if_pos rfl]

theorem runImage_mapped {all : Bool} {y : Reading}
    (h : hasSignature (x.mm.bytesAt p page) = true)
    (hcount : Word32.sub (neededPages (effectiveBytes (x.mm.bytesAt p page))) 1 = count)
    (hmap : Mm.mapPages page p count 0 x.mm = some (true, k, mm))
    (hloop : Loop.run (readRound file p fd (effectiveBytes (x.mm.bytesAt p page)) s.table) fuel
      { x with mm } = some (all, y)) :
    s.runImage fuel file p page fd x = if all = false
      then finish page (Word32.add count 1) fd p (-runErrorReading)
        { s with mm := y.mm, got := y.got }
      else (y.mm.loaderLoad p (headerImage (y.mm.bytesAt p page)) .user).bind fun (pid, mm) =>
        finish page (Word32.add count 1) fd p pid { s with mm, got := y.got } := by
  rw [runImage, if_neg (by rw [h]; exact Ne.symm Bool.false_ne_true)]
  dsimp only
  rw [hcount, hmap, Option.bind_eq_bind, Option.bind_some]
  dsimp only
  rw [if_neg (Ne.symm Bool.false_ne_true), hloop, Option.bind_eq_bind, Option.bind_some]
  dsimp only
  rw [Option.bind_eq_bind]

end

/-- The loop that reads the header has ended. -/
structure HeaderRead (file : RunFile) (p : Pid) (s : RunSystem) (i t g d fd : Nat)
    (table : DevTable DevFn (List (DevFn × Nat))) (x : Reading) (z : Nat × List Byte) : Prop where
  pos : 1 ≤ i
  lt : i < 1024
  pde : (s.mm.procs p).dir.pde i = none
  range : fd < maxFd
  free : s.table.devices (cell p fd) = none
  devices : table.devices = Function.update s.table.devices (cell p fd) (some d)
  refcount : 0 < (table.objects d).refcount
  follows : x.Follows (i * 1024 * pageSize) s.got z
  at' : HeaderAt s.mm p i t (fun _ => g) z.2 x.mm
  user : s.mm.userFrames = x.mm.userFrames + 1
  freeable : s.mm.freeableFrames = x.mm.freeableFrames + 1

theorem HeaderRead.finish {g : Nat} {x : Reading} {z : Nat × List Byte}
    (h : HeaderRead file p s i t g d fd table x z) (hlent : s.mm.Lent mm p i t f 0 n)
    (hn : n ≤ 1024) :
    ∃ u, finish (i * 1024) n fd p r ⟨mm, table, got⟩ = some (r, u) ∧ s.Restored u :=
  finish_restores hlent (by have := h.pos; omega) h.lt hn h.pde h.range h.free h.devices h.refcount

/-- The call up to the end of that loop. -/
theorem Sound.start (h : s.Sound file p) (hfile : file.Honest) (hfuel : 2 ^ 32 ≤ fuel)
    (hdev : file.dev = some d) :
    ∃ i t g fd table x z, HeaderRead file p s i t g d fd table x z ∧
      (file.Breaks 20 (0, []) z ∧ run fuel file p s =
          RunSystem.finish (i * 1024) 1 fd p (-runErrorReading) ⟨x.mm, table, x.got⟩ ∨
        file.Delivers 20 (0, []) z ∧ run fuel file p s =
          runImage fuel file p (i * 1024) fd x { s with table }) := by
  obtain ⟨fd, table, hfirst, hfd, hfree, hcur, hdevices, href⟩ :=
    deviceDescriptor_free (d := d) (t := { s.table with curPid := p }) h.descriptor
  obtain ⟨i, hi, hi', hpage, hpde⟩ := Mm.mmVaddrForFreePdtEntry_spec h.entry
  obtain ⟨g, u₁, u, t, halloc, hmap, hlent, huser, hfreeable⟩ :=
    Mm.firstPage (by omega) hpde h.kernel h.user
  have hopen : table.devices (cell p fd) ≠ none := by
    rw [hdevices]
    dsimp only
    rw [Function.update_self]
    nofun
  have hpointer : i * 1024 * pageSize =
      Word32.wrap (i * 1024 * pageSize + ([] : List Byte).length) := by
    rw [List.length_nil, Nat.add_zero, Word32.wrap_of_lt]
    rw [pageSize_eq]
    omega
  have hrounds : 20 - ([] : List Byte).length < fuel := by
    rw [List.length_nil]
    omega
  have hmost : ∀ n (bytes : List Byte), bytes.length < 20 →
      0 < file.answer n (20 - bytes.length) →
      bytes.length + (file.answer n (20 - bytes.length)).toNat ≤ 20 := by
    intro n bytes hlt hpos
    have := (hfile n (20 - bytes.length)).2.2
    omega
  obtain ⟨all, x, z, hloop, hx, hP, hend⟩ := @readLoop_total file p (i * 1024 * pageSize) s.got fd
    20 ⟨0, 0, i * 1024 * pageSize, s.got, u⟩ (0, []) (HeaderAt s.mm p i t fun _ => g) table hfile
    (by decide) (Nat.le_of_lt hfd) hopen
    (fun n bytes mm hlt hpos hmm => hmm.read hi' (hmost n bytes hlt hpos))
    ⟨rfl, rfl, hpointer, rfl⟩
    ⟨hlent, by decide, fun k hk => absurd hk (Nat.not_lt_zero k)⟩ fuel hrounds h.header
  obtain ⟨hleft, hleft'⟩ := hlent.frames_left hP.1
  refine ⟨i, t, g, fd, table, x, z, ⟨hi, hi', hpde, hfd, hfree, hdevices, href, hx, hP,
    by rw [hleft, huser], by rw [hleft', hfreeable]⟩, ?_⟩
  have hrun : run fuel file p s = if all = false
      then RunSystem.finish (i * 1024) 1 fd p (-runErrorReading) ⟨x.mm, table, x.got⟩
      else runImage fuel file p (i * 1024) fd x { s with table } := by
    have hopened : runOpened fuel file p fd { s with table } =
        runHeader fuel file p (i * 1024) fd u { s with table } := runOpened_some halloc hpage hmap
    rw [run_some hdev hfirst, hopened]
    exact runHeader_some rfl hloop
  obtain ⟨rfl, hz⟩ | ⟨rfl, hz⟩ := hend
  · rw [if_neg (Ne.symm Bool.false_ne_true)] at hrun
    exact .inr ⟨hz, hrun⟩
  · rw [if_pos rfl] at hrun
    exact .inl ⟨hz, hrun⟩

/-- The call after the header was read. -/
theorem HeaderRead.ends {g : Nat} {x : Reading} {z : Nat × List Byte}
    (h : HeaderRead file p s i t g d fd table x z) (hs : s.Sound file p) (hfile : file.Honest)
    (hfuel : 2 ^ 32 ≤ fuel) (hdev : file.dev = some d) (hz : file.Delivers 20 (0, []) z)
    (hrun : run fuel file p s = runImage fuel file p (i * 1024) fd x { s with table }) :
    Ends fuel file p s := by
  have hlen : z.2.length = 20 := hz.length_eq hfile (Nat.zero_le 20)
  obtain ⟨hlent, -, hbytes⟩ := h.at'
  rw [hlen] at hbytes
  have hsame := hasSignature_congr hbytes
  have hsize := effectiveBytes_congr hbytes
  cases hsig : hasSignature (fileOf z.2) with
  | false =>
    rw [runImage_unsigned (hsame.trans hsig)] at hrun
    obtain ⟨u, hu, hrestored⟩ := h.finish hlent (by decide)
    exact .signature hz hsig ⟨u, hrun.trans hu, hrestored⟩
  | true =>
  have hexec : file.Executable z := ⟨hz, hsig⟩
  have hstarts : s.Starts file := by
    refine ⟨by rw [hdev]; nofun, ?_, hs.kernel⟩
    rw [h.user]
    exact Nat.succ_pos _
  have hsmall := hs.size z hexec
  have hpages := hs.pages z hexec
  have huser := h.user
  have hfreeable := h.freeable
  have hpos := neededPages_pos (Nat.lt_of_lt_of_le (by decide) hsmall)
  have hmost := neededPages_le (@effectiveBytes_lt (fileOf z.2))
  have hcount : Word32.sub (neededPages (effectiveBytes (x.mm.bytesAt p (i * 1024)))) 1 =
      neededPages (effectiveBytes (fileOf z.2)) - 1 := by
    rw [hsize]
    exact Word32.sub_of_le hpos (by omega)
  obtain ⟨f', mm', hmap, hlent'⟩ := Mm.mapPages_total h.pos h.lt hlent
    (n := neededPages (effectiveBytes (fileOf z.2)) - 1) (by omega) (by omega)
  rw [Nat.zero_add] at hmap hlent'
  by_cases hfit : neededPages (effectiveBytes (fileOf z.2)) ≤ s.mm.userFrames
  · have hmin : min (neededPages (effectiveBytes (fileOf z.2)) - 1) x.mm.userFrames =
        neededPages (effectiveBytes (fileOf z.2)) - 1 := by omega
    have hback : neededPages (effectiveBytes (fileOf z.2)) - 1 + 1 =
        neededPages (effectiveBytes (fileOf z.2)) := by omega
    rw [hmin, decide_eq_true (by omega)] at hmap
    rw [hmin, hback] at hlent'
    have hopen : table.devices (cell p fd) ≠ none := by
      rw [h.devices, Function.update_self]
      nofun
    have hmappable : s.Mappable file z := ⟨hstarts, hexec, hfit⟩
    have hrounds : effectiveBytes (fileOf z.2) - z.2.length < fuel := by
      have := @effectiveBytes_lt (fileOf z.2)
      omega
    obtain ⟨all, y, w, hloop, hy, hP, hend⟩ := @readLoop_total file p (i * 1024 * pageSize) s.got
      fd (effectiveBytes (fileOf z.2)) { x with mm := mm' } z
      (fun _ mm => s.mm.Lent mm p i t f' 0 (neededPages (effectiveBytes (fileOf z.2)))) table hfile
      effectiveBytes_lt (Nat.le_of_lt h.range) hopen
      (fun n bytes mm _ _ hmm => by
        obtain ⟨byte, hbyte⟩ := @Mm.storeBytes_eq mm p (file.answer n
          (effectiveBytes (fileOf z.2) - bytes.length)).toNat
          (Word32.wrap (i * 1024 * pageSize + bytes.length)) (file.data n)
        rw [hbyte]
        exact hmm.withBytes byte)
      ⟨h.follows.n, h.follows.readed, h.follows.copyPointer, h.follows.got⟩ hlent' fuel hrounds
      fun w hw => hs.image z w hmappable hw
    rw [← hsize] at hloop
    rw [runImage_mapped (s := { s with table }) (hsame.trans hsig) hcount hmap hloop,
      Word32.add_of_lt (by omega), hback] at hrun
    obtain ⟨rfl, hw⟩ | ⟨rfl, hw⟩ := hend
    · refine .loads hmappable hw fun r u hu => ?_
      rw [hrun, if_neg (Ne.symm Bool.false_ne_true), Option.bind_eq_some_iff] at hu
      obtain ⟨⟨pid, mm⟩, -, hu⟩ := hu
      have hgot : y.got = s.got + w.2.length := hy.got
      rw [finish_got hu, ← hw.length_eq hfile (by omega)]
      exact hgot
    · rw [if_pos rfl] at hrun
      obtain ⟨u, hu, hrestored⟩ := h.finish hP (by omega)
      exact .image hmappable hw ⟨u, hrun.trans hu, hrestored⟩
  · have hmin : min (neededPages (effectiveBytes (fileOf z.2)) - 1) x.mm.userFrames =
        x.mm.userFrames := by omega
    rw [hmin, decide_eq_false (by omega)] at hmap
    rw [hmin] at hlent'
    rw [runImage_unmapped (hsame.trans hsig) hcount hmap, Word32.add_of_lt (by omega)] at hrun
    obtain ⟨u, hu, hrestored⟩ := h.finish hlent' (by omega)
    exact .frames hexec (Nat.lt_of_not_le hfit) ⟨u, hrun.trans hu, hrestored⟩

theorem Sound.ends (hs : s.Sound file p) (hfile : file.Honest) (hfuel : 2 ^ 32 ≤ fuel)
    (hdev : file.dev = some d) : Ends fuel file p s := by
  obtain ⟨i, t, g, fd, table, x, z, h, ⟨hz, hrun⟩ | ⟨hz, hrun⟩⟩ := hs.start hfile hfuel hdev
  · obtain ⟨u, hu, hrestored⟩ := h.finish h.at'.1 (by decide)
    exact .header hz ⟨u, hrun.trans hu, hrestored⟩
  · exact h.ends hs hfile hfuel hdev hz hrun

theorem Fails.not_pid {code : Int} {u : RunSystem} (h : s.Fails fuel file p code)
    (hcode : 0 < code) (hrun : run fuel file p s = some (r, u)) : ¬0 ≤ r := by
  obtain ⟨v, hv, -⟩ := h
  rw [hrun] at hv
  cases hv
  omega

/-- The reads come to one of the ends only. -/
theorem Ends.cleanly (h : Ends fuel file p s) (hs : s.Sound file p) (hdev : file.dev ≠ none) :
    s.RunsCleanly fuel file p := by
  have huser : s.mm.userFrames ≠ 0 := by
    obtain ⟨g, u, -, -, -, -, -, hcount, -⟩ := Mm.alloc_freeable hs.user
    rw [hcount]
    exact Nat.succ_ne_zero _
  constructor
  case opening => exact fun hnone => absurd hnone hdev
  case first =>
    rintro - (h0 | h0)
    · exact absurd h0 huser
    · exact absurd h0 (Nat.ne_of_gt hs.kernel)
  case header =>
    intro z _ hz
    cases h with
    | header _ hfails => exact hfails
    | signature hz' => exact (hz'.not_breaks hz).elim
    | frames hz' => exact (hz'.header.not_breaks hz).elim
    | image hz' | loads hz' => exact (hz'.executable.header.not_breaks hz).elim
  case signature =>
    intro z _ hz hno
    have hnot : ∀ z', ¬file.Executable z' := by
      intro z' hz'
      obtain rfl := hz.unique hz'.header
      exact absurd (hno.symm.trans hz'.signature) Bool.false_ne_true
    cases h with
    | header hz' => exact (hz.not_breaks hz').elim
    | signature _ _ hfails => exact hfails
    | frames hz' => exact (hnot _ hz').elim
    | image hz' | loads hz' => exact (hnot _ hz'.executable).elim
  case frames =>
    intro z _ hz hfew
    have hnot : ∀ z', ¬s.Mappable file z' := by
      intro z' hz'
      obtain rfl := hz.header.unique hz'.executable.header
      exact absurd hz'.pages (Nat.not_le_of_lt hfew)
    cases h with
    | header hz' => exact (hz.header.not_breaks hz').elim
    | signature hz' hno =>
      obtain rfl := hz.header.unique hz'
      exact absurd (hno.symm.trans hz.signature) Bool.false_ne_true
    | frames _ _ hfails => exact hfails
    | image hz' | loads hz' => exact (hnot _ hz').elim
  case image =>
    intro z w hz hw
    cases h with
    | header hz' => exact (hz.executable.header.not_breaks hz').elim
    | signature hz' hno =>
      obtain rfl := hz.executable.header.unique hz'
      exact absurd (hno.symm.trans hz.executable.signature) Bool.false_ne_true
    | frames hz' hfew =>
      obtain rfl := hz.executable.header.unique hz'.header
      exact absurd hz.pages (Nat.not_le_of_lt hfew)
    | image _ _ hfails => exact hfails
    | loads hz' hw' =>
      obtain rfl := hz.executable.header.unique hz'.executable.header
      exact (hw'.not_breaks hw).elim
  case load => exact fun z w hz hw hfew => absurd (hs.load z w hz hw) (Nat.not_le_of_lt hfew)
  case pid =>
    intro r u hrun hr
    cases h with
    | header _ hfails | image _ _ hfails => exact (hfails.not_pid (by decide) hrun hr).elim
    | signature _ _ hfails => exact (hfails.not_pid (by decide) hrun hr).elim
    | frames _ _ hfails => exact (hfails.not_pid (by decide) hrun hr).elim
    | loads hz hw hgot => exact ⟨_, _, hz.executable, hw, hgot r u hrun⟩

/-- Without a file nothing happens. -/
theorem run_none (hdev : file.dev = none) :
    run fuel file p s = some (-runErrorOpening, s) := by
  rw [run, hdev]

theorem cleanly_of_none (hdev : file.dev = none) : s.RunsCleanly fuel file p := by
  have hnot : ¬s.Starts file := fun h => h.opened hdev
  refine ⟨fun _ => ⟨s, run_none hdev, ⟨.refl _, fun _ => rfl, rfl, rfl⟩, rfl⟩,
    fun h => absurd hdev h, fun _ h => (hnot h).elim, fun _ h => (hnot h).elim,
    fun _ h => (hnot h).elim, fun _ _ h => (hnot h.starts).elim, fun _ _ h => (hnot h.starts).elim,
    fun r u hrun hr => ?_⟩
  rw [run_none hdev] at hrun
  cases hrun
  exact absurd hr (by decide)

/-- Without a frame for the first page, the kernel's page table goes. -/
theorem not_cleanly_of_no_frame (hdev : file.dev ≠ none) (hnone : s.mm.userFrames = 0)
    (hkernel : (s.mm.procs p).kernelTable ≠ 0) : ¬s.RunsCleanly fuel file p := by
  intro h
  obtain ⟨u, hu, hrestored⟩ := h.first hdev (.inl hnone)
  obtain ⟨d, hd⟩ := Option.ne_none_iff_exists'.1 hdev
  rw [run_some hd rfl, runOpened, Mm.alloc_none hnone, Option.elim_none, finish,
    Option.map_eq_some_iff] at hu
  obtain ⟨v, hv, heq⟩ := hu
  cases heq
  rw [freeRunResources, Option.bind_eq_bind, Option.bind_eq_some_iff] at hv
  obtain ⟨mm, hmm, hv⟩ := hv
  cases hmm
  dsimp only at hv
  split at hv
  · cases hv
  · cases hv
    have hpcb := congrArg MmPcb.kernelTable (hrestored.mm.dirs.pcb p)
    have hentry : pdEntryFor 0 = 0 := Nat.zero_div 1024
    rw [Mm.mmFreePageTableFor, if_pos hentry, Mm.setPcb_self] at hpcb
    exact hkernel hpcb.symm

/-- A run that does without what is not checked fails cleanly. A run without a frame for its first
page does not. -/
theorem run_cleanly (fuel : Nat) (file : RunFile) (p : Pid) (s : RunSystem)
    (hfuel : 2 ^ 32 ≤ fuel) (hfile : file.Honest) :
    (file.dev = none ∨ s.Sound file p → s.RunsCleanly fuel file p) ∧
      (file.dev ≠ none → s.mm.userFrames = 0 → (s.mm.procs p).kernelTable ≠ 0 →
        ¬s.RunsCleanly fuel file p) := by
  refine ⟨?_, not_cleanly_of_no_frame⟩
  rintro (hnone | hs)
  · exact cleanly_of_none hnone
  · by_cases hdev : file.dev = none
    · exact cleanly_of_none hdev
    · obtain ⟨d, hd⟩ := Option.ne_none_iff_exists'.1 hdev
      exact (hs.ends hfile hfuel hd).cleanly hs hdev

end

/-- A machine on which no descriptor is open. -/
def booted (mm : Mm) : RunSystem where
  mm := mm
  table := ⟨0, fun _ => none, fun _ => ⟨.ext2File, 0, none, none, none, none⟩, [], []⟩
  got := 0

/-- An executable of 24 bytes that ends behind its header. -/
def truncatedFile : RunFile where
  dev := some 0
  answer n size := if n = 0 then min size 20 else 0
  data _ k := [0x50, 0x53, 0x4f, 0, 0, 0, 0x40, 0, 0x18, 0, 0x40, 0, 0x18, 0, 0x40].getD k 0

theorem truncatedFile_nonneg (n size : Nat) : 0 ≤ truncatedFile.answer n size := by
  rw [truncatedFile]
  dsimp only
  split <;> omega

theorem truncatedFile_honest : truncatedFile.Honest := fun n size => by
  rw [truncatedFile]
  dsimp only
  split <;> omega

/-- What the reads of its header return. -/
theorem truncatedFile_executable :
    truncatedFile.Executable (1, (List.range 20).map (truncatedFile.data 0)) where
  header := ⟨.single (.read (n := 0) (by decide) (by decide)), by decide⟩
  signature := by decide

theorem truncatedFile_size {z : Nat × List Byte} (hz : truncatedFile.Executable z) :
    effectiveBytes (fileOf z.2) = 24 := by
  obtain rfl := hz.header.unique truncatedFile_executable.header
  decide

/-- A task runs a file that ends too early. -/
theorem run_cleanly_truncated : ∃ s : RunSystem, (s.mm.procs 1).live = true ∧
    s.RunsCleanly (2 ^ 32) truncatedFile 1 ∧
    ∃ u, run (2 ^ 32) truncatedFile 1 s = some (-runErrorReading, u) ∧ s.Restored u := by
  have hrun : ((Mm.boot.loaderLoad idlePid (smallImage 0x400000) .user).map fun r =>
      ((r.2.procs 1).live, decide (r.2.mmVaddrForFreePdtEntry 1 ≠ 0),
        decide (0 < r.2.freeFrames 0x100 0x400), decide (0 < r.2.freeableFrames),
        decide (0 < r.2.userFrames))) = some (true, true, true, true, true) := by
    decide +kernel
  obtain ⟨⟨pid, mm⟩, -, h⟩ := Option.map_eq_some_iff.1 hrun
  simp only [Prod.mk.injEq, decide_eq_true_eq] at h
  obtain ⟨hlive, hentry, hkernel, hfreeable, huser⟩ := h
  have hbreaks : ∀ z, truncatedFile.Executable z → truncatedFile.Breaks 24 z z := by
    intro z hz
    obtain rfl := hz.header.unique truncatedFile_executable.header
    exact ⟨.refl, by decide, by decide⟩
  have hclean : (booted mm).RunsCleanly (2 ^ 32) truncatedFile 1 := by
    refine (run_cleanly (2 ^ 32) truncatedFile 1 (booted mm) (Nat.le_refl _)
      truncatedFile_honest).1 (.inr ⟨⟨0, by decide, rfl⟩, hentry, hkernel, hfreeable,
        fun _ _ => truncatedFile_nonneg _ _, fun z hz => ?_, fun z hz => ?_,
        fun _ _ _ _ => truncatedFile_nonneg _ _, fun z w hz hw => ?_⟩)
    · rw [truncatedFile_size hz]
      decide
    · rw [truncatedFile_size hz]
      have hone : neededPages 24 = 1 := by decide
      have hleft := Nat.min_le_left (neededPages 24) (booted mm).mm.userFrames
      exact hleft.trans (Nat.le_min.2 ⟨by decide, hone ▸ hfreeable⟩)
    · rw [truncatedFile_size hz.executable] at hw
      exact (hw.not_breaks (hbreaks z hz.executable)).elim
  have hexec := truncatedFile_executable
  have hend := hbreaks _ hexec
  rw [← truncatedFile_size hexec] at hend
  refine ⟨booted mm, hlive, hclean,
    hclean.image _ _ ⟨⟨by decide, huser, hkernel⟩, hexec, ?_⟩ hend⟩
  rw [truncatedFile_size hexec]
  exact huser

/-- A file that ends at once. -/
def emptyFile : RunFile := ⟨some 0, fun _ _ => 0, fun _ _ => 0⟩

/-- No frame is free for users, and a file that could be opened is run. -/
theorem run_without_frame :
    ¬(booted { Mm.boot with limit := 0x400 }).RunsCleanly (2 ^ 32) emptyFile 1 :=
  not_cleanly_of_no_frame (by decide) rfl (by decide)

end RunSystem

end SpuriOS
