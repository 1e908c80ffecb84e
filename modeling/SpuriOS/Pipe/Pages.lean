import SpuriOS.Pipe.Stream

/-! # Pipes that carry whole pages

One process reads from a pipe, a page at a time, another one writes to it, and every write but the
last is of a whole page too. Then the buffer is empty or holds one page from position 0 on, and no
call ever takes a second round to move bytes or passes the end of the buffer. -/

namespace SpuriOS

open Circular

/-- What the bytes in an endpoint's buffer depend on. -/
def PipeDevice.place (e : PipeDevice) : Nat × Nat × Nat × Nat :=
  (e.pair, e.buffer, e.bytesAvailable, e.pos)

/-- The pipe with the ends `r` and `w` holds the bytes `q`. `short` says that less than a page was
written to it; nothing is written after that. -/
structure Paged (P : Pipes) (r w : Nat) (q : List Byte) (short : Bool) : Prop where
  ne : r ≠ w
  pairRead : (P.endpoints r).pair = w
  pairWrite : (P.endpoints w).pair = r
  buffer : (P.endpoints w).buffer = (P.endpoints r).buffer
  availRead : (P.endpoints r).bytesAvailable = q.length
  availWrite : (P.endpoints w).bytesAvailable = q.length
  posRead : q ≠ [] ∨ short = false → (P.endpoints r).pos = 0
  posWrite : short = false → (P.endpoints w).pos = 0
  page : q.length ≤ bufferSize
  full : short = false → q = [] ∨ q.length = bufferSize
  bytes : slice (P.mem (P.endpoints r).buffer) 0 q.length = q

/-- What a step on the pipe with the ends `r` and `w` leaves alone. -/
structure Elsewhere (P P' : Pipes) (r w : Nat) : Prop where
  endpoints : ∀ x, x ≠ r → x ≠ w → P'.endpoints x = P.endpoints x
  buffer : ∀ x, (P'.endpoints x).buffer = (P.endpoints x).buffer
  mem : ∀ g, g ≠ (P.endpoints r).buffer → P'.mem g = P.mem g
  held : ∀ g, g ≠ (P.endpoints r).buffer → P'.held g = P.held g

/-- A step that neither opens nor closes anything. -/
structure Moved (P P' : Pipes) (r w : Nat) : Prop extends Elsewhere P P' r w where
  klass : ∀ x, (P'.endpoints x).klass = (P.endpoints x).klass
  held_eq : P'.held = P.held

section
variable {P P' : Pipes} {r w : Nat} {q : List Byte} {short : Bool} {c : PipeCall}

theorem PipeDevice.place_inj {e e' : PipeDevice} (h : e.place = e'.place) :
    e.pair = e'.pair ∧ e.buffer = e'.buffer ∧ e.bytesAvailable = e'.bytesAvailable ∧
      e.pos = e'.pos := by
  simpa only [place, Prod.mk.injEq] using h

theorem Paged.congr (h : Paged P r w q short)
    (hr : (P'.endpoints r).place = (P.endpoints r).place)
    (hw : (P'.endpoints w).place = (P.endpoints w).place)
    (hmem : P'.mem (P.endpoints r).buffer = P.mem (P.endpoints r).buffer) :
    Paged P' r w q short := by
  obtain ⟨hrp, hrb, hra, hrpos⟩ := PipeDevice.place_inj hr
  obtain ⟨hwp, hwb, hwa, hwpos⟩ := PipeDevice.place_inj hw
  exact {
    ne := h.ne
    pairRead := hrp.trans h.pairRead
    pairWrite := hwp.trans h.pairWrite
    buffer := by rw [hwb, hrb]; exact h.buffer
    availRead := hra.trans h.availRead
    availWrite := hwa.trans h.availWrite
    posRead := fun hq => hrpos.trans (h.posRead hq)
    posWrite := fun hshort => hwpos.trans (h.posWrite hshort)
    page := h.page
    full := h.full
    bytes := by rw [hrb, hmem]; exact h.bytes }

/-- The ends of a pipe that was just opened. -/
theorem Paged.opened {f : Nat} (hne : r ≠ w)
    (hr : P.endpoints r = { initEndpoint with buffer := f, read := true, pair := w })
    (hw : P.endpoints w = { initEndpoint with buffer := f, write := true, pair := r }) :
    Paged P r w [] false where
  ne := hne
  pairRead := by rw [hr]
  pairWrite := by rw [hw]
  buffer := by rw [hr, hw]
  availRead := by rw [hr]; rfl
  availWrite := by rw [hw]; rfl
  posRead _ := by rw [hr]; rfl
  posWrite _ := by rw [hw]; rfl
  page := Nat.zero_le _
  full _ := .inl rfl
  bytes := rfl

theorem Paged.partnerRead (h : Paged P r w q short) : P.partner r = w := h.pairRead

theorem Paged.partnerWrite (h : Paged P r w q short) : P.partner w = r := h.pairWrite

/-- A write of a page or less to the empty pipe puts in all of it. -/
theorem Paged.write (h : Paged P r w [] false) (hw : c.writing = true) (hself : c.self = w)
    (hr : (P.endpoints r).klass ≠ .none) (hsz : c.sz = 0) (hsize : 0 < c.size)
    (hpage : c.size ≤ bufferSize) :
    pipeRound P c = (writeMove P c, { c with sz := c.size }, .again) ∧
      Paged (writeMove P c) r w (c.bytes c.size) (decide (c.size < bufferSize)) ∧
      ((writeMove P c).endpoints r).queue = [] ∧
      ((writeMove P c).endpoints w).queue = (P.endpoints w).queue ∧
      Moved P (writeMove P c) r w := by
  obtain rfl := hself.symm
  have hpartner : P.partner c.self = r := h.partnerWrite
  have hpair : P.pair c.self = P.endpoints r := by rw [Pipes.pair, hpartner]
  have havail := h.availWrite
  have hlen : writeSize P c = c.size := by
    rw [writeSize, havail, hsz, List.length_nil, Word32.sub_of_le (Nat.zero_le _) (by decide)]
    exact Nat.min_eq_right hpage
  have hcall : writeCall P c = { c with sz := c.size } := by
    rw [writeCall, hlen, hsz, Nat.zero_add]
  have hround : pipeRound P c = (writeMove P c, writeCall P c, .again) := by
    rw [pipeRound, if_pos hw, pipeWriteRound, if_neg (by omega), hpair, if_neg hr,
      if_neg (by rw [havail]; decide)]
  have hne : P.partner c.self ≠ c.self := by rw [hpartner]; exact h.ne
  obtain ⟨heself, hepair⟩ := writeMove_flow hne
  rw [hpartner, hpair, hlen] at hepair
  have hpos := h.posWrite rfl
  rw [hlen, havail, hpos, Nat.zero_add, List.length_nil, Nat.zero_add] at heself
  have hmem : (writeMove P c).mem = Function.update P.mem (P.endpoints c.self).buffer
      (Memory.write (P.mem (P.endpoints c.self).buffer) 0 c.size fun i =>
        c.user.byte (c.buf + i)) := by
    rw [writeMove_mem, writeCopy_straight (by rw [hpos, hlen]; omega), hlen, hpos]
  have hbytes : (c.bytes c.size).length = c.size := length_slice
  have hwhole : decide (c.size < bufferSize) = false → c.size = bufferSize := fun hshort =>
    Nat.le_antisymm hpage (Nat.not_lt.1 (of_decide_eq_false hshort))
  have hpaged : Paged (writeMove P c) r c.self (c.bytes c.size)
      (decide (c.size < bufferSize)) := by
    constructor
    · exact h.ne
    · rw [hepair]; exact h.pairRead
    · rw [heself]; exact h.pairWrite
    · rw [heself, hepair]; exact h.buffer
    · rw [hepair, hbytes]
      dsimp only
      rw [h.availRead, List.length_nil, Word32.add_of_lt (by rw [bufferSize_eq] at hpage; omega),
        Nat.zero_add]
    · rw [heself, hbytes]
    · intro _
      rw [hepair]
      exact h.posRead (.inr rfl)
    · intro hshort
      rw [heself]
      dsimp only
      rw [hwhole hshort]
      rfl
    · rw [hbytes]; exact hpage
    · intro hshort
      exact .inr (hbytes.trans (hwhole hshort))
    · rw [hmem, hepair, hbytes, h.buffer]
      dsimp only
      rw [Function.update_self]
      refine slice_congr fun i hi => ?_
      rw [Memory.write_add hi]
  exact ⟨by rw [hround, hcall], hpaged, by rw [hepair], by rw [heself], {
    endpoints := fun x hr hw => writeMove_endpoints.2 hw (by rw [hpartner]; exact hr)
    buffer := fun x => (PipeDevice.link_inj writeMove_endpoints.1).2.2.2.2
    mem := fun g hg => by
      rw [hmem]
      exact Function.update_of_ne (by rw [h.buffer]; exact hg) ..
    held := fun _ _ => rfl
    klass := fun x => (PipeDevice.link_inj writeMove_endpoints.1).1
    held_eq := rfl }⟩

/-- A read of a page takes everything that is in the pipe. -/
theorem Paged.read (h : Paged P r w q short) (hw : c.writing = false) (hself : c.self = r)
    (hq : q ≠ []) (hsz : c.sz = 0) (hsize : c.size = bufferSize)
    (huser : c.user.isUser c.buf = true) :
    ∃ u, pipeRound P c = (readMove P c, { c with sz := q.length, user := u }, .again) ∧
      u.isUser = c.user.isUser ∧ slice u.byte c.buf q.length = q ∧
      Paged (readMove P c) r w [] short ∧ ((readMove P c).endpoints w).queue = [] ∧
      ((readMove P c).endpoints r).queue = (P.endpoints r).queue ∧
      Moved P (readMove P c) r w := by
  obtain rfl := hself.symm
  have hpartner : P.partner c.self = w := h.partnerRead
  have hpair : P.pair c.self = P.endpoints w := by rw [Pipes.pair, hpartner]
  have havail := h.availRead
  have hpos := h.posRead (.inl hq)
  have hlen : readSize P c = q.length := by
    rw [readSize, havail, hsz, hsize]
    exact Nat.min_eq_left h.page
  have hpositive : 0 < q.length := List.length_pos_iff.2 hq
  have hstraight : (P.endpoints c.self).pos + readSize P c ≤ bufferSize := by
    rw [hpos, hlen, Nat.zero_add]
    exact h.page
  have hround : pipeRound P c = (readMove P c, readCall P c, .again) := by
    rw [pipeRound, if_neg (by rw [hw]; exact Bool.false_ne_true), pipeReadRound,
      if_neg (by rw [hsz, hsize]; decide), if_neg (by omega), if_neg (by omega)]
  have hcopy := readCopy_straight hstraight huser
  have hne : P.partner c.self ≠ c.self := by rw [hpartner]; exact h.ne.symm
  obtain ⟨heself, hepair⟩ := readMove_flow hne
  rw [hpartner, hpair, hlen, h.availWrite,
    Word32.sub_self (Nat.lt_of_le_of_lt h.page (by decide))] at hepair
  rw [hlen, havail, hpos, Nat.zero_add, Nat.sub_self] at heself
  have hpaged : Paged (readMove P c) c.self w [] short := by
    constructor
    · exact h.ne
    · rw [heself]; exact h.pairRead
    · rw [hepair]; exact h.pairWrite
    · rw [heself, hepair]; exact h.buffer
    · rw [heself, List.length_nil]
    · rw [hepair, List.length_nil]
    · rintro (hnil | hshort)
      · exact absurd rfl hnil
      · rw [heself]
        dsimp only
        rw [(h.full hshort).resolve_left hq]
        rfl
    · intro hshort
      rw [hepair]
      exact h.posWrite hshort
    · exact Nat.zero_le _
    · exact fun _ => .inl rfl
    · rfl
  refine ⟨readCopy P c (readSize P c), ?_, ?_, ?_, hpaged, by rw [hepair], by rw [heself], ?_⟩
  · rw [hround, readCall, hlen, hsz, Nat.zero_add]
  · rw [hcopy]
  · rw [hcopy, hlen, hpos]
    dsimp only
    refine Eq.trans (slice_congr fun i hi => ?_) h.bytes
    rw [Memory.write_add hi]
  exact {
    endpoints := fun x hr hw => readMove_endpoints.2 hr (by rw [hpartner]; exact hw)
    buffer := fun x => (PipeDevice.link_inj readMove_endpoints.1).2.2.2.2
    mem := fun _ _ => rfl
    held := fun _ _ => rfl
    klass := fun x => (PipeDevice.link_inj readMove_endpoints.1).1
    held_eq := rfl }

end

/-! ## Both ends in use -/

/-- A call that reads a page from the end `r`. -/
structure ReadsPage (c : PipeCall) (r : Nat) (q : List Byte) (short : Bool) : Prop where
  writing : c.writing = false
  self : c.self = r
  size : c.size = bufferSize
  user : c.user.isUser c.buf = true
  sz : c.sz = 0 ∨ c.sz = bufferSize ∨ (c.sz < bufferSize ∧ q = [] ∧ short = true)

/-- A call that writes a page or the rest of the stream to the end `w`. -/
structure WritesPage (c : PipeCall) (w : Nat) (short : Bool) : Prop where
  writing : c.writing = true
  self : c.self = w
  pos : 0 < c.size
  page : c.size ≤ bufferSize
  sz : c.sz = c.size ∨ (c.sz = 0 ∧ short = false)

/-- The pipe with the ends `r` and `w`, and the calls `rd` of the process `p` that reads from it and
`wr` of the process `p'` that writes to it. `refs` counts the descriptors. -/
structure Line (P : Pipes) (refs : Nat → Nat) (r w : Nat) (p p' : Pid) (rd wr : Option PipeCall)
    (q : List Byte) (short : Bool) : Prop extends Paged P r w q short where
  openRead : (P.endpoints r).klass = .none ↔ refs r = 0
  openWrite : (P.endpoints w).klass = .none ↔ refs w = 0
  held : P.held (P.endpoints r).buffer = true ↔ ¬(refs r = 0 ∧ refs w = 0)
  reads : ∀ c, rd = some c → ReadsPage c r q short
  writes : ∀ c, wr = some c → WritesPage c w short
  queueRead : (P.endpoints r).queue = [] ∨ ((P.endpoints r).queue = [p] ∧ q = [] ∧ refs w ≠ 0 ∧
    ∃ c, rd = some c ∧ c.sz < c.size)
  queueWrite : (P.endpoints w).queue = [] ∨ ((P.endpoints w).queue = [p'] ∧
    q.length = bufferSize ∧ refs r ≠ 0 ∧ ∃ c, wr = some c ∧ c.sz = 0)

section
variable {P P' : Pipes} {refs refs' : Nat → Nat} {r w : Nat} {p p' : Pid}
  {rd wr : Option PipeCall} {q : List Byte} {short : Bool} {c : PipeCall}

/-- A step on another pipe. -/
theorem Line.elsewhere {r' w' : Nat} (h : Line P refs r w p p' rd wr q short)
    (he : Elsewhere P P' r' w') (hr : r ≠ r' ∧ r ≠ w') (hw : w ≠ r' ∧ w ≠ w')
    (hbuffer : (P.endpoints r).buffer ≠ (P.endpoints r').buffer)
    (hrefs : refs' r = refs r ∧ refs' w = refs w) : Line P' refs' r w p p' rd wr q short := by
  have her := he.endpoints r hr.1 hr.2
  have hew := he.endpoints w hw.1 hw.2
  refine { h.congr (by rw [her]) (by rw [hew]) (he.mem _ hbuffer) with
    openRead := ?_, openWrite := ?_, held := ?_, reads := h.reads, writes := h.writes
    queueRead := ?_, queueWrite := ?_ }
  · rw [her, hrefs.1]; exact h.openRead
  · rw [hew, hrefs.2]; exact h.openWrite
  · rw [her, he.held _ hbuffer, hrefs.1, hrefs.2]; exact h.held
  · rw [her, hrefs.2]; exact h.queueRead
  · rw [hew, hrefs.1]; exact h.queueWrite

/-- A call goes on, ends or begins, as far as nobody waits. -/
theorem Line.recall {rd' wr' : Option PipeCall} (h : Line P refs r w p p' rd wr q short)
    (hrd : ∀ c, rd' = some c → ReadsPage c r q short)
    (hwr : ∀ c, wr' = some c → WritesPage c w short)
    (hr : rd' = rd ∨ p ∉ (P.endpoints r).queue) (hw : wr' = wr ∨ p' ∉ (P.endpoints w).queue) :
    Line P refs r w p p' rd' wr' q short := by
  refine { h with reads := hrd, writes := hwr, queueRead := ?_, queueWrite := ?_ }
  · obtain rfl | hr := hr
    · exact h.queueRead
    · refine .inl (h.queueRead.resolve_right fun hq => hr ?_)
      rw [hq.1]
      exact List.mem_singleton_self p
  · obtain rfl | hw := hw
    · exact h.queueWrite
    · refine .inl (h.queueWrite.resolve_right fun hq => hw ?_)
      rw [hq.1]
      exact List.mem_singleton_self p'

/-- What a round of the writer does. -/
theorem Line.write (h : Line P refs r w p p' rd (some c) q short)
    (hq : p' ∉ (P.endpoints w).queue) :
    (∃ P', pipeRound P c = (P', { c with sz := c.size }, .again) ∧ c.sz = 0 ∧ q = [] ∧
      short = false ∧ refs r ≠ 0 ∧ Moved P P' r w ∧
      (P'.endpoints r).queue = [] ∧ (P'.endpoints w).queue = [] ∧
      Line P' refs r w p p' rd (some { c with sz := c.size }) (c.bytes c.size)
        (decide (c.size < bufferSize))) ∨
    (pipeRound P c = (P, c, .block) ∧ c.sz = 0 ∧ q.length = bufferSize ∧ refs r ≠ 0) ∨
    (∃ n, pipeRound P c = (P, c, .done n) ∧ (c.sz = c.size ∨ refs r = 0)) := by
  have hc := h.writes c rfl
  have hpair : P.pair c.self = P.endpoints r := by rw [Pipes.pair, hc.self, h.partnerWrite]
  have hround : pipeRound P c = pipeWriteRound P c := by rw [pipeRound, if_pos hc.writing]
  obtain hsz | ⟨hsz, rfl⟩ := hc.sz
  · refine .inr (.inr ⟨c.sz, ?_, .inl hsz⟩)
    rw [hround, pipeWriteRound, if_pos (by omega)]
  have hpos := hc.pos
  by_cases hr : refs r = 0
  · refine .inr (.inr ⟨0, ?_, .inr hr⟩)
    rw [hround, pipeWriteRound, if_neg (by omega), hpair, if_pos (h.openRead.2 hr)]
  have hk : (P.endpoints r).klass ≠ .none := fun hnone => hr (h.openRead.1 hnone)
  obtain rfl | hfull := h.full rfl
  · have hnil : (P.endpoints w).queue = [] := h.queueWrite.resolve_right fun hwait => hq (by
      rw [hwait.1]; exact List.mem_singleton_self p')
    obtain ⟨hround, hpaged, hqr, hqw, he⟩ :=
      h.toPaged.write hc.writing hc.self hk hsz hpos hc.page
    refine .inl ⟨writeMove P c, hround, hsz, rfl, rfl, hr, he, hqr, hqw.trans hnil, ?_⟩
    refine { hpaged with
      openRead := by rw [he.klass]; exact h.openRead
      openWrite := by rw [he.klass]; exact h.openWrite
      held := by rw [he.buffer, he.held_eq]; exact h.held
      reads := fun d hd => ?_, writes := fun d hd => ?_
      queueRead := .inl hqr, queueWrite := .inl (hqw.trans hnil) }
    · have hread := h.reads d hd
      refine { hread with sz := ?_ }
      obtain h0 | hall | ⟨-, -, hshort⟩ := hread.sz
      · exact .inl h0
      · exact .inr (.inl hall)
      · exact absurd hshort Bool.false_ne_true
    · obtain rfl := Option.some.inj hd
      exact { hc with sz := .inl rfl }
  · refine .inr (.inl ⟨?_, hsz, hfull, hr⟩)
    rw [hround, pipeWriteRound, if_neg (by omega), hpair, if_neg hk, hc.self, h.availWrite,
      if_pos hfull]

/-- What a round of the reader does. -/
theorem Line.read (h : Line P refs r w p p' (some c) wr q short)
    (hq : p ∉ (P.endpoints r).queue) :
    (∃ P' u, pipeRound P c = (P', { c with sz := q.length, user := u }, .again) ∧ c.sz = 0 ∧
      q ≠ [] ∧ u.isUser = c.user.isUser ∧ slice u.byte c.buf q.length = q ∧ Moved P P' r w ∧
      (P'.endpoints r).queue = [] ∧ (P'.endpoints w).queue = [] ∧
      Line P' refs r w p p' (some { c with sz := q.length, user := u }) wr [] short) ∨
    (pipeRound P c = (P, c, .block) ∧ c.sz < c.size ∧ q = [] ∧ refs w ≠ 0) ∨
    (pipeRound P c = (P, c, .done c.sz) ∧
      (c.sz = bufferSize ∨ (c.sz < bufferSize ∧ q = [] ∧ refs w = 0))) := by
  have hc := h.reads c rfl
  have hpair : P.pair c.self = P.endpoints w := by rw [Pipes.pair, hc.self, h.partnerRead]
  have hround : pipeRound P c = pipeReadRound P c := by
    rw [pipeRound, if_neg (by rw [hc.writing]; exact Bool.false_ne_true)]
  have havail : (P.endpoints c.self).bytesAvailable = q.length := by rw [hc.self, h.availRead]
  have hsize := hc.size
  by_cases hall : c.sz = bufferSize
  · refine .inr (.inr ⟨?_, .inl hall⟩)
    rw [hround, pipeReadRound, if_pos (by omega)]
  have hlt : c.sz < bufferSize := by
    obtain h0 | h1 | h2 := hc.sz
    · rw [h0]; decide
    · exact absurd h1 hall
    · exact h2.1
  by_cases hnil : q = []
  · subst hnil
    by_cases hw : refs w = 0
    · refine .inr (.inr ⟨?_, .inr ⟨hlt, rfl, hw⟩⟩)
      rw [hround, pipeReadRound, if_neg (by omega), hpair,
        if_pos ⟨h.openWrite.2 hw, by rw [havail]; rfl⟩]
    · refine .inr (.inl ⟨?_, by omega, rfl, hw⟩)
      rw [hround, pipeReadRound, if_neg (by omega), hpair,
        if_neg fun hnone => hw (h.openWrite.1 hnone.1), if_pos (by rw [havail]; rfl)]
  · have hsz : c.sz = 0 := by
      obtain h0 | h1 | h2 := hc.sz
      · exact h0
      · exact absurd h1 hall
      · exact absurd h2.2.1 hnil
    have hqueue : (P.endpoints r).queue = [] := h.queueRead.resolve_right fun hwait => hq (by
      rw [hwait.1]; exact List.mem_singleton_self p)
    obtain ⟨u, hround, huser, hbytes, hpaged, hqw, hqr, he⟩ :=
      h.toPaged.read hc.writing hc.self hnil hsz hsize hc.user
    refine .inl ⟨readMove P c, u, hround, hsz, hnil, huser, hbytes, he, hqr.trans hqueue, hqw, ?_⟩
    refine { hpaged with
      openRead := by rw [he.klass]; exact h.openRead
      openWrite := by rw [he.klass]; exact h.openWrite
      held := by rw [he.buffer, he.held_eq]; exact h.held
      reads := fun d hd => ?_, writes := fun d hd => h.writes d hd
      queueRead := .inl (hqr.trans hqueue), queueWrite := .inl hqw }
    obtain rfl := Option.some.inj hd
    refine { hc with user := by rw [huser]; exact hc.user, sz := ?_ }
    obtain hshort | hshort := Bool.eq_false_or_eq_true short
    · obtain hlen | hlen := Nat.lt_or_eq_of_le h.page
      · exact .inr (.inr ⟨hlen, rfl, hshort⟩)
      · exact .inr (.inl hlen)
    · exact .inr (.inl ((h.full hshort).resolve_left hnil))

/-- `loader_enqueue` of a process. -/
def Pipes.enqueue (P : Pipes) (x : Nat) (p : Pid) : Pipes :=
  P.modify x fun e => { e with queue := e.queue ++ [p] }

theorem Pipes.enqueue_place {x : Nat} (p : Pid) (y : Nat) :
    ((P.enqueue x p).endpoints y).place = (P.endpoints y).place ∧
      ((P.enqueue x p).endpoints y).klass = (P.endpoints y).klass := by
  by_cases hy : y = x
  · subst hy
    rw [enqueue, modify_self]
    exact ⟨rfl, rfl⟩
  · rw [enqueue, modify_of_ne _ hy]
    exact ⟨rfl, rfl⟩

theorem Pipes.enqueue_moved {x : Nat} (p : Pid) (hx : x = r ∨ x = w) :
    Moved P (P.enqueue x p) r w where
  endpoints y hr hw := modify_of_ne _ (by obtain rfl | rfl := hx <;> assumption)
  buffer y := (PipeDevice.place_inj (enqueue_place p y).1).2.1
  mem _ _ := rfl
  held _ _ := rfl
  klass y := (enqueue_place p y).2
  held_eq := rfl

/-- The reader waits. -/
theorem Line.waitRead (h : Line P refs r w p p' (some c) wr [] short)
    (hq : p ∉ (P.endpoints r).queue) (hsz : c.sz < c.size) (hw : refs w ≠ 0) :
    Line (P.enqueue r p) refs r w p p' (some c) wr [] short := by
  have hqueue : (P.endpoints r).queue = [] := h.queueRead.resolve_right fun hwait => hq (by
    rw [hwait.1]; exact List.mem_singleton_self p)
  have hmoved : Moved P (P.enqueue r p) r w := Pipes.enqueue_moved p (.inl rfl)
  refine { h.congr (P.enqueue_place p r).1 (P.enqueue_place p w).1 rfl with
    openRead := by rw [hmoved.klass]; exact h.openRead
    openWrite := by rw [hmoved.klass]; exact h.openWrite
    held := by rw [hmoved.buffer, hmoved.held_eq]; exact h.held
    reads := h.reads, writes := h.writes, queueRead := .inr ⟨?_, rfl, hw, c, rfl, hsz⟩
    queueWrite := ?_ }
  · rw [Pipes.enqueue, Pipes.modify_self, hqueue]
    rfl
  · rw [Pipes.enqueue, Pipes.modify_of_ne _ h.ne.symm]
    exact h.queueWrite

/-- The writer waits. -/
theorem Line.waitWrite (h : Line P refs r w p p' rd (some c) q short)
    (hq : p' ∉ (P.endpoints w).queue) (hsz : c.sz = 0) (hfull : q.length = bufferSize)
    (hr : refs r ≠ 0) : Line (P.enqueue w p') refs r w p p' rd (some c) q short := by
  have hqueue : (P.endpoints w).queue = [] := h.queueWrite.resolve_right fun hwait => hq (by
    rw [hwait.1]; exact List.mem_singleton_self p')
  have hmoved : Moved P (P.enqueue w p') r w := Pipes.enqueue_moved p' (.inr rfl)
  refine { h.congr (P.enqueue_place p' r).1 (P.enqueue_place p' w).1 rfl with
    openRead := by rw [hmoved.klass]; exact h.openRead
    openWrite := by rw [hmoved.klass]; exact h.openWrite
    held := by rw [hmoved.buffer, hmoved.held_eq]; exact h.held
    reads := h.reads, writes := h.writes, queueRead := ?_
    queueWrite := .inr ⟨?_, hfull, hr, c, rfl, hsz⟩ }
  · rw [Pipes.enqueue, Pipes.modify_of_ne _ h.ne]
    exact h.queueRead
  · rw [Pipes.enqueue, Pipes.modify_self, hqueue]
    rfl

/-! ### Descriptors -/

/-- `close` of a descriptor of the endpoint `x`: the last one flushes it. -/
def Pipes.closeEnd (P : Pipes) (refs : Nat → Nat) (x : Nat) : Pipes :=
  if refs x = 1 then pipeFlush x P else P

def dropRef (refs : Nat → Nat) (x : Nat) : Nat → Nat := Function.update refs x (refs x - 1)

theorem pipeFlush_place {x : Nat} (h : P.partner x ≠ x) (y : Nat) :
    ((pipeFlush x P).endpoints y).place = (P.endpoints y).place := by
  obtain ⟨hx, hy, -⟩ := pipeFlush_endpoints h
  by_cases hyx : y = x
  · subst hyx
    rw [hx]
    rfl
  · obtain ⟨q, hq⟩ := hy y hyx
    rw [hq]
    rfl

theorem Paged.flush_elsewhere {x : Nat} (h : Paged P r w q short) (hx : x = r ∨ x = w) :
    Elsewhere P (pipeFlush x P) r w := by
  have hpartner : P.partner x ≠ x ∧ (P.partner x = r ∨ P.partner x = w) ∧
      (P.endpoints x).buffer = (P.endpoints r).buffer := by
    obtain rfl | rfl := hx
    · rw [h.partnerRead]
      exact ⟨h.ne.symm, .inr rfl, rfl⟩
    · rw [h.partnerWrite]
      exact ⟨h.ne, .inl rfl, h.buffer⟩
  obtain ⟨hmem, hheld⟩ := pipeFlush_frames hpartner.1
  refine ⟨fun y hr hw => ?_, fun y => ?_, fun g _ => by rw [hmem], fun g hg => ?_⟩
  · refine (pipeFlush_endpoints hpartner.1).2.2 y ?_ ?_
    · obtain rfl | rfl := hx <;> assumption
    · obtain h' | h' := hpartner.2.1 <;> rw [h'] <;> assumption
  · exact (PipeDevice.place_inj (pipeFlush_place hpartner.1 y)).2.1
  · rw [hheld]
    split
    · exact Function.update_of_ne (by rw [hpartner.2.2]; exact hg) ..
    · rfl

theorem dropRef_self {x : Nat} : dropRef refs x x = refs x - 1 := Function.update_self ..

theorem dropRef_of_ne {x y : Nat} (h : y ≠ x) : dropRef refs x y = refs y :=
  Function.update_of_ne h ..

/-- What depends on the descriptors depends on whether there are any. -/
theorem Line.refs_congr (h : Line P refs r w p p' rd wr q short)
    (hr : refs' r = 0 ↔ refs r = 0) (hw : refs' w = 0 ↔ refs w = 0) :
    Line P refs' r w p p' rd wr q short :=
  { h with
    openRead := h.openRead.trans hr.symm
    openWrite := h.openWrite.trans hw.symm
    held := by rw [hr, hw]; exact h.held
    queueRead := by rw [ne_eq, hw]; exact h.queueRead
    queueWrite := by rw [ne_eq, hr]; exact h.queueWrite }

/-- What a process waits for. -/
theorem Line.readerWaits (h : Line P refs r w p p' rd wr q short)
    (hq : p ∈ (P.endpoints r).queue) : q = [] ∧ refs w ≠ 0 := by
  obtain hnil | ⟨-, hempty, hw, -⟩ := h.queueRead
  · rw [hnil] at hq
    cases hq
  · exact ⟨hempty, hw⟩

theorem Line.writerWaits (h : Line P refs r w p p' rd wr q short)
    (hq : p' ∈ (P.endpoints w).queue) : q.length = bufferSize ∧ refs r ≠ 0 := by
  obtain hnil | ⟨-, hfull, hr, -⟩ := h.queueWrite
  · rw [hnil] at hq
    cases hq
  · exact ⟨hfull, hr⟩

/-- Nobody waits outside a call. -/
theorem Line.idleRead (h : Line P refs r w p p' none wr q short) :
    (P.endpoints r).queue = [] := by
  refine h.queueRead.resolve_right ?_
  rintro ⟨-, -, -, c, hc, -⟩
  cases hc

theorem Line.idleWrite (h : Line P refs r w p p' rd none q short) :
    (P.endpoints w).queue = [] := by
  refine h.queueWrite.resolve_right ?_
  rintro ⟨-, -, -, c, hc, -⟩
  cases hc

/-- The last descriptor of the read end is closed. -/
theorem Line.flushRead (h : Line P refs r w p p' none wr q short) (hlast : refs r = 1) :
    Line (pipeFlush r P) (dropRef refs r) r w p p' none wr q short := by
  have hne : P.partner r ≠ r := by rw [h.partnerRead]; exact h.ne.symm
  have hplace := pipeFlush_place hne
  obtain ⟨hself, -, -⟩ := pipeFlush_endpoints hne
  have hpair := pipeFlush_partner hne
  obtain ⟨hmem, hheld⟩ := pipeFlush_frames hne
  rw [h.partnerRead] at hpair
  have hr : dropRef refs r r = 0 := by rw [dropRef_self, hlast]
  have hw : dropRef refs r w = refs w := dropRef_of_ne h.ne.symm
  refine { h.congr (hplace r) (hplace w) (by rw [hmem]) with
    openRead := ?_, openWrite := ?_, held := ?_, reads := h.reads, writes := h.writes
    queueRead := .inl ?_, queueWrite := .inl ?_ }
  · rw [hself, hr]
    exact iff_of_true rfl rfl
  · rw [hpair, hw]; exact h.openWrite
  · rw [hself, hr, hw, hheld, Pipes.pair, h.partnerRead]
    split
    next hnone =>
      rw [Function.update_self]
      exact iff_of_false Bool.false_ne_true (not_not_intro ⟨rfl, h.openWrite.1 hnone⟩)
    next hsome =>
      refine iff_of_true (h.held.2 fun hzero => ?_) fun hzero => hsome (h.openWrite.2 hzero.2)
      exact hsome (h.openWrite.2 hzero.2)
  · rw [hself]
    exact h.idleRead
  · rw [hpair]

/-- The last descriptor of the write end is closed. -/
theorem Line.flushWrite (h : Line P refs r w p p' rd none q short) (hlast : refs w = 1) :
    Line (pipeFlush w P) (dropRef refs w) r w p p' rd none q short := by
  have hne : P.partner w ≠ w := by rw [h.partnerWrite]; exact h.ne
  have hplace := pipeFlush_place hne
  obtain ⟨hself, -, -⟩ := pipeFlush_endpoints hne
  have hpair := pipeFlush_partner hne
  obtain ⟨hmem, hheld⟩ := pipeFlush_frames hne
  rw [h.partnerWrite] at hpair
  have hr : dropRef refs w r = refs r := dropRef_of_ne h.ne
  have hw : dropRef refs w w = 0 := by rw [dropRef_self, hlast]
  refine { h.congr (hplace r) (hplace w) (by rw [hmem]) with
    openRead := ?_, openWrite := ?_, held := ?_, reads := h.reads, writes := h.writes
    queueRead := .inl ?_, queueWrite := .inl ?_ }
  · rw [hpair, hr]; exact h.openRead
  · rw [hself, hw]
    exact iff_of_true rfl rfl
  · rw [hpair, hr, hw, hheld, Pipes.pair, h.partnerWrite, h.buffer]
    split
    next hnone =>
      rw [Function.update_self]
      exact iff_of_false Bool.false_ne_true (not_not_intro ⟨h.openRead.1 hnone, rfl⟩)
    next hsome =>
      refine iff_of_true (h.held.2 fun hzero => ?_) fun hzero => hsome (h.openRead.2 hzero.1)
      exact hsome (h.openRead.2 hzero.1)
  · rw [hpair]
  · rw [hself]
    exact h.idleWrite

/-- A close of one of the ends by a process that is not in a call on it. -/
theorem Line.close {x : Nat} (h : Line P refs r w p p' rd wr q short)
    (hx : (x = r ∧ (refs r = 1 → rd = none)) ∨ (x = w ∧ (refs w = 1 → wr = none)))
    (hrefs : refs x ≠ 0) :
    Line (P.closeEnd refs x) (dropRef refs x) r w p p' rd wr q short ∧
      Elsewhere P (P.closeEnd refs x) r w := by
  have hx' : x = r ∨ x = w := hx.imp And.left And.left
  rw [Pipes.closeEnd]
  split
  next hlast =>
    refine ⟨?_, h.toPaged.flush_elsewhere hx'⟩
    obtain ⟨rfl, hnone⟩ | ⟨rfl, hnone⟩ := hx
    · obtain rfl := hnone hlast
      exact h.flushRead hlast
    · obtain rfl := hnone hlast
      exact h.flushWrite hlast
  next hmore =>
    have hdrop : ∀ y, dropRef refs x y = 0 ↔ refs y = 0 := by
      intro y
      by_cases hy : y = x
      · subst hy
        rw [dropRef_self]
        omega
      · rw [dropRef_of_ne hy]
    exact ⟨h.refs_congr (hdrop r) (hdrop w), fun _ _ _ => rfl, fun _ => rfl, fun _ _ => rfl,
      fun _ _ => rfl⟩

/-- A pipe without descriptors. -/
theorem Line.gone (h : Line P refs r w p p' rd wr q short) (hr : refs r = 0) (hw : refs w = 0) :
    (P.endpoints r).klass = .none ∧ (P.endpoints w).klass = .none ∧
      P.held (P.endpoints r).buffer = false :=
  ⟨h.openRead.2 hr, h.openWrite.2 hw, Bool.eq_false_iff.2 fun hheld => h.held.1 hheld ⟨hr, hw⟩⟩

/-- A pipe that was just opened, with a descriptor of each end. -/
theorem Line.opened {f : Nat} (hne : r ≠ w)
    (hr : P.endpoints r = { initEndpoint with buffer := f, read := true, pair := w })
    (hw : P.endpoints w = { initEndpoint with buffer := f, write := true, pair := r })
    (hheld : P.held f = true) (hrefs : refs r = 1 ∧ refs w = 1) :
    Line P refs r w p p' none none [] false :=
  { Paged.opened hne hr hw with
    openRead := by
      rw [hr, hrefs.1]
      exact iff_of_false (show ¬Klass.pipe = Klass.none by decide) (by decide)
    openWrite := by
      rw [hw, hrefs.2]
      exact iff_of_false (show ¬Klass.pipe = Klass.none by decide) (by decide)
    held := by rw [hr, hrefs.1]; exact iff_of_true hheld fun h => absurd h.1 (by decide)
    reads := fun c hc => absurd hc.symm (Option.some_ne_none c)
    writes := fun c hc => absurd hc.symm (Option.some_ne_none c)
    queueRead := .inl (by rw [hr]; rfl)
    queueWrite := .inl (by rw [hw]; rfl) }

end

end SpuriOS
