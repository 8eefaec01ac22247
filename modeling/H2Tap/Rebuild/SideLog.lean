import H2Tap.Rebuild.Due
import H2Tap.Tracker.Delivered

/-!
# What a capture holds of a side

The payloads that one side of a connection sends have places in its stream, told by their sequence
numbers. `SideLog` collects the bytes by their places, in whatever order they come, and
`SideLog.frames` are the complete frames among them. A reassembler that never gets a segment after
the next byte that it expects has just these bytes (`Received`).
-/

namespace H2Tap

open Lib

/-- The bytes of a side. Place 0 is the byte after its SYN, or the first one of its first payload,
and `base` the sequence number of that byte. No byte is at place `top` or after it. `opened` says
that the side opened the connection, by a bare SYN. -/
structure SideLog where
  opened : Bool
  base : Option Seq
  byteAt : Int → Option UInt8
  top : Nat

namespace SideLog

/-- Nothing was sent yet. -/
def new (opened : Bool) : SideLog := ⟨opened, none, fun _ => none, 0⟩

/-- The first segment with a SYN or a payload sets the base. -/
def start (log : SideLog) (seg : TcpSegment) : SideLog :=
  if log.base.isNone && (seg.has TcpFlags.syn || !seg.payload.isEmpty) then
    { log with base := some seg.dataSeq }
  else log

/-- The place of a payload, the one nearest to the top. -/
def place (log : SideLog) (seg : TcpSegment) : Int :=
  log.base.elim 0 fun base => log.top + seqDelta seg.dataSeq (base + BitVec.ofNat 32 log.top)

/-- Put a payload at its place. Bytes that came before stay. -/
def put (log : SideLog) (place : Int) (payload : Bytes) : SideLog :=
  if payload.isEmpty then log
  else
    { log with
      byteAt := fun i =>
        (log.byteAt i).or (if place ≤ i then payload[(i - place).toNat]? else none)
      top := max log.top (place + payload.length).toNat }

/-- A segment of the side. -/
def add (log : SideLog) (seg : TcpSegment) : SideLog :=
  (log.start seg).put ((log.start seg).place seg) seg.payload

/-- The bytes from a place on, up to the first one that is missing. -/
def bytesFrom (log : SideLog) (first : Int) : Bytes :=
  let found := (List.range (log.top - first).toNat).map fun i : Nat => log.byteAt (first + i)
  (found.takeWhile Option.isSome).filterMap id

/-- The complete frames from a place on, after the preface of a client. -/
def frames (log : SideLog) (first : Int) : List Frame :=
  completeFrames (afterPreface log.opened (log.bytesFrom first))

end SideLog

/-! ## What is received -/

/-- The reassembler has received the bytes of the log from place 0 on, in order. -/
structure Received (log : SideLog) (bytes : Bytes) (r : Reassembler) : Prop where
  started : ∀ base, log.base = some base →
    r.initialized = true ∧ r.Carries base bytes bytes.length
  unstarted : log.base = none → r = .new ∧ bytes = []
  top : log.top = bytes.length
  byteAt : ∀ i : Nat, log.byteAt i = bytes[i]?

variable {log : SideLog} {bytes : Bytes} {r : Reassembler}

theorem received_new (opened : Bool) : Received (.new opened) [] .new :=
  ⟨(fun _ hbase => by cases hbase), fun _ => ⟨rfl, rfl⟩, rfl, fun _ => rfl⟩

/-- The bytes from a place on. -/
theorem Received.bytes_from (h : Received log bytes r) (n : Nat) :
    log.bytesFrom n = bytes.drop n := by
  have hcount : ((log.top : Int) - n).toNat = (bytes.drop n).length := by
    rw [h.top, List.length_drop]
    omega
  have hall : ((List.range ((log.top : Int) - n).toNat).map fun i : Nat =>
      log.byteAt ((n : Int) + (i : Int))) = (bytes.drop n).map some := by
    rw [hcount]
    refine List.ext_getElem? fun i => ?_
    rw [List.getElem?_map, List.getElem?_map, List.getElem?_drop]
    by_cases hi : i < (bytes.drop n).length
    · rw [List.getElem?_range hi, Option.map_some, ← Nat.cast_add, h.byteAt]
      rw [List.length_drop] at hi
      rw [List.getElem?_eq_getElem (by omega)]
      rfl
    · rw [List.getElem?_eq_none (by simpa using hi), List.getElem?_eq_none (by
        rw [List.length_drop] at hi
        omega)]
      rfl
  have hsome : ((bytes.drop n).map some).takeWhile Option.isSome = (bytes.drop n).map some := by
    rw [List.takeWhile_eq_self_iff]
    intro b hb
    obtain ⟨x, -, rfl⟩ := List.mem_map.mp hb
    rfl
  simp only [SideLog.bytesFrom, hall, hsome, List.filterMap_map]
  exact List.filterMap_some

theorem Received.consume (h : Received log bytes r) (hbase : log.base.isSome = true) (n : Nat) :
    Received log bytes (r.consume n) := by
  refine ⟨fun base hsome => ?_, fun hnone => ?_, h.top, h.byteAt⟩
  · obtain ⟨hinit, hcarries⟩ := h.started base hsome
    refine ⟨?_, hcarries.consume n⟩
    unfold Reassembler.consume Reassembler.compact
    split <;> exact hinit
  · rw [hnone] at hbase
    cases hbase

/-! ## A segment -/

namespace SideLog

theorem start_of_base (h : log.base.isSome = true) (seg : TcpSegment) : log.start seg = log := by
  have hnone : log.base.isNone = false := by rw [← Option.not_isSome, h]; rfl
  rw [start, hnone, Bool.false_and, if_neg Bool.false_ne_true]

theorem start_of_none (h : log.base = none) {seg : TcpSegment}
    (hstarts : (seg.has TcpFlags.syn || !seg.payload.isEmpty) = true) :
    log.start seg = { log with base := some seg.dataSeq } := by
  rw [start, h, hstarts]
  rfl

theorem put_base (log : SideLog) (place : Int) (payload : Bytes) :
    (log.put place payload).base = log.base := by
  unfold put
  split <;> rfl

theorem put_opened (log : SideLog) (place : Int) (payload : Bytes) :
    (log.put place payload).opened = log.opened := by
  unfold put
  split <;> rfl

theorem add_opened (log : SideLog) (seg : TcpSegment) : (log.add seg).opened = log.opened := by
  rw [add, put_opened, start]
  split <;> rfl

end SideLog

/-- The number before another one, a step nearer. -/
theorem seq_delta_succ {a b : Seq} (h : seqDelta a b ≤ 0) :
    seqDelta (a + 1) b = seqDelta a b + 1 := by
  have hsub : a + 1 - b = a - b + 1 := by bv_omega
  rw [seqDelta] at h ⊢
  rw [seqDelta, hsub, BitVec.toInt_eq_toNat_cond, BitVec.toInt_eq_toNat_cond, BitVec.toNat_add]
  rw [BitVec.toInt_eq_toNat_cond] at h
  have hlt := (a - b).isLt
  have hone : (1 : BitVec 32).toNat = 1 := rfl
  rw [hone]
  split at h <;> split <;> omega

/-- What is received of a longer stream. -/
theorem Reassembler.Carries.extend {base : Seq} (h : r.Carries base bytes bytes.length)
    (more : Bytes) : r.Carries base (bytes ++ more) bytes.length := by
  refine ⟨h.order, ?_⟩
  rw [h.bytes, List.take_length, List.take_left]

/-- A SYN sets the base of both. -/
theorem Received.note_syn (h : Received log bytes r) {seg : TcpSegment}
    (hsyn : seg.has TcpFlags.syn = true) :
    Received (log.start seg) bytes (r.noteSyn seg.seq) := by
  cases hbase : log.base with
  | some base =>
      obtain ⟨hinit, -⟩ := h.started base hbase
      rw [SideLog.start_of_base (by rw [hbase]; rfl), Reassembler.noteSyn, if_pos hinit]
      exact h
  | none =>
      obtain ⟨rfl, rfl⟩ := h.unstarted hbase
      have hdata : seg.dataSeq = seg.seq + 1 := by rw [TcpSegment.dataSeq, if_pos hsyn]
      rw [SideLog.start_of_none hbase (by rw [hsyn]; rfl), hdata]
      refine ⟨fun base hsome => ?_, (fun hnone => by cases hnone), h.top, h.byteAt⟩
      obtain rfl := Option.some.inj hsome
      exact ⟨rfl, Reassembler.in_order_note_syn seg.seq, rfl⟩

/-- The bytes of a log with a payload that does not start after its top. -/
theorem byte_at_put (htop : log.top = bytes.length) (hbyte : ∀ i : Nat, log.byteAt i = bytes[i]?)
    {n : Nat} {payload : Bytes} (hpayload : payload ≠ []) :
    let put := log.put ((bytes.length : Int) - n) payload
    put.top = (bytes ++ payload.drop n).length ∧
      ∀ i : Nat, put.byteAt i = (bytes ++ payload.drop n)[i]? := by
  have hempty : ¬payload.isEmpty = true := by rwa [List.isEmpty_iff]
  intro put
  have hput : put = { log with
      byteAt := fun i => (log.byteAt i).or (if (bytes.length : Int) - n ≤ i then
        payload[(i - ((bytes.length : Int) - n)).toNat]? else none)
      top := max log.top ((bytes.length : Int) - n + payload.length).toNat } := if_neg hempty
  rw [hput]
  constructor
  · show max log.top _ = _
    rw [htop, List.length_append, List.length_drop]
    omega
  · intro i
    show (log.byteAt i).or _ = _
    rw [hbyte]
    by_cases hi : i < bytes.length
    · rw [List.getElem?_append_left hi, List.getElem?_eq_getElem hi]
      rfl
    · have hplace : ((i : Int) - ((bytes.length : Int) - n)).toNat = n + (i - bytes.length) := by
        omega
      rw [List.getElem?_append_right (not_lt.mp hi), List.getElem?_eq_none (not_lt.mp hi),
        Option.none_or, if_pos (by omega), hplace, List.getElem?_drop]

/-- A segment that does not start after the next expected byte brings the same new bytes to both. A
SYN may bring none. -/
theorem Received.push_started (h : Received log bytes r) {base : Seq}
    (hbase : log.base = some base) {seg : TcpSegment} (hpayload : seg.payload ≠ [])
    (hahead : seqDelta seg.seq r.nextSeq ≤ 0)
    (hsyn : seg.has TcpFlags.syn = true →
      (log.put (log.place seg) seg.payload).top = log.top) (nowUs : Nat) :
    ∃ more, Received (log.put (log.place seg) seg.payload) (bytes ++ more)
        (r.push seg.seq seg.payload nowUs).1 ∧
      (r.push seg.seq seg.payload nowUs).2 = false ∧
      (r.push seg.seq seg.payload nowUs).1.available = r.available ++ more ∧
      (r.push seg.seq seg.payload nowUs).1.offset = r.offset := by
  obtain ⟨hinit, hcarries⟩ := h.started base hbase
  have hnext : r.nextSeq = base + BitVec.ofNat 32 bytes.length := by
    have horder := hcarries.order.nextSeq
    rwa [Reassembler.start, if_pos hinit] at horder
  obtain ⟨n, hn⟩ : ∃ n : Nat, seqDelta seg.seq r.nextSeq = -n :=
    ⟨(-seqDelta seg.seq r.nextSeq).toNat, by omega⟩
  -- what is new for the reassembler is new for the log
  obtain ⟨place, hplace, hmore⟩ : ∃ place : Nat, log.place seg = (bytes.length : Int) - place ∧
      seg.payload.drop place = seg.payload.drop n := by
    have hat : log.place seg = bytes.length + seqDelta seg.dataSeq r.nextSeq := by
      rw [SideLog.place, hbase, hnext, h.top]
      rfl
    cases hhas : seg.has TcpFlags.syn with
    | false =>
        have hdata : seg.dataSeq = seg.seq := by rw [TcpSegment.dataSeq, hhas]; rfl
        refine ⟨n, ?_, rfl⟩
        rw [hat, hdata, hn]
        rfl
    | true =>
        have hdata : seg.dataSeq = seg.seq + 1 := by rw [TcpSegment.dataSeq, hhas]; rfl
        rw [hdata, seq_delta_succ hahead, hn] at hat
        have htop := hsyn hhas
        have hempty : ¬seg.payload.isEmpty = true := by rwa [List.isEmpty_iff]
        rw [SideLog.put, if_neg hempty, hat] at htop
        have htop : max log.top ((bytes.length : Int) + (-n + 1) + seg.payload.length).toNat =
            log.top := htop
        rw [h.top] at htop
        have hpos := List.length_pos_iff.mpr hpayload
        refine ⟨n - 1, by rw [hat]; omega, ?_⟩
        rw [List.drop_eq_nil_of_le (by omega), List.drop_eq_nil_of_le (by omega)]
  obtain ⟨htop, hbyte⟩ := byte_at_put h.top h.byteAt (n := place) hpayload
  rw [hmore] at htop hbyte
  rw [hplace, Reassembler.push_repeated hinit hn, hnext]
  have hslice : seg.payload.drop n <+: (bytes ++ seg.payload.drop n).drop bytes.length := by
    rw [List.drop_left]
  obtain ⟨hgap, havailable, hoffset, hcarries'⟩ :=
    (hcarries.extend (seg.payload.drop n)).push hslice nowUs
  refine ⟨seg.payload.drop n, ⟨fun base' hbase' => ?_, fun hnone => ?_, htop, hbyte⟩, hgap,
    havailable, hoffset⟩
  · rw [SideLog.put_base, hbase] at hbase'
    obtain rfl := Option.some.inj hbase'
    refine ⟨?_, by rwa [List.length_append]⟩
    by_cases hnone : seg.payload.drop n = []
    · rw [hnone]
      exact hinit
    · exact (Reassembler.push_keeps r _ _ nowUs).2 hnone
  · rw [SideLog.put_base, hbase] at hnone
    cases hnone

/-- The first payload, without a SYN. -/
theorem Received.push_first (h : Received log bytes r) (hbase : log.base = none) {seg : TcpSegment}
    (hhas : seg.has TcpFlags.syn = false) (hpayload : seg.payload ≠ []) (nowUs : Nat) :
    Received (log.add seg) (bytes ++ seg.payload) (r.push seg.seq seg.payload nowUs).1 ∧
      (r.push seg.seq seg.payload nowUs).2 = false ∧
      (r.push seg.seq seg.payload nowUs).1.available = r.available ++ seg.payload ∧
      (r.push seg.seq seg.payload nowUs).1.offset = r.offset := by
  obtain ⟨rfl, rfl⟩ := h.unstarted hbase
  have hdata : seg.dataSeq = seg.seq := by rw [TcpSegment.dataSeq, hhas]; rfl
  have hempty : seg.payload.isEmpty = false := by
    rwa [Bool.eq_false_iff, Ne, List.isEmpty_iff]
  have hstart : log.start seg = { log with base := some seg.seq } := by
    rw [SideLog.start_of_none hbase (by rw [hempty, Bool.not_false, Bool.or_true]), hdata]
  have hplace : (log.start seg).place seg = ((0 : Nat) : Int) - (0 : Nat) := by
    rw [hstart, SideLog.place, hdata]
    show (log.top : Int) + seqDelta seg.seq (seg.seq + BitVec.ofNat 32 log.top) = _
    rw [h.top]
    simp
  have hbase' : (log.add seg).base = some seg.seq := by
    rw [SideLog.add, SideLog.put_base, hstart]
  have htop' : (log.start seg).top = ([] : Bytes).length := by
    rw [hstart]
    exact h.top
  have hbyte' (i : Nat) : (log.start seg).byteAt i = ([] : Bytes)[i]? := by
    rw [hstart]
    exact h.byteAt i
  have hput := byte_at_put htop' hbyte' (n := 0) hpayload
  have hadd : log.add seg = (log.start seg).put (((0 : Nat) : Int) - (0 : Nat)) seg.payload := by
    rw [SideLog.add, hplace]
  obtain ⟨htop, hbyte⟩ : (log.add seg).top = seg.payload.length ∧
      ∀ i : Nat, (log.add seg).byteAt i = seg.payload[i]? := by
    rw [hadd]
    exact hput
  have hslice : seg.payload <+: seg.payload.drop 0 := List.prefix_refl _
  have hpush := (Reassembler.carries_new seg.seq seg.payload).push hslice nowUs
  have hzero : seg.seq + BitVec.ofNat 32 0 = seg.seq := by simp
  rw [hzero, Nat.zero_add] at hpush
  obtain ⟨hgap, havailable, hoffset, hcarries⟩ := hpush
  refine ⟨⟨fun base hsome => ?_, fun hnone => ?_, htop, hbyte⟩, hgap, havailable, hoffset⟩
  · obtain rfl := Option.some.inj (hbase'.symm.trans hsome)
    exact ⟨(Reassembler.push_keeps _ _ _ nowUs).2 hpayload, hcarries⟩
  · rw [hbase'] at hnone
    cases hnone

/-- The SYN of a segment sets the base of both, and changes nothing else. -/
theorem Received.noted (h : Received log bytes r) {seg : TcpSegment}
    (hbase : (seg.has TcpFlags.syn || log.base.isSome) = true) :
    let noted := if seg.has TcpFlags.syn then r.noteSyn seg.seq else r
    Received (log.start seg) bytes noted ∧ noted.available = r.available ∧
      noted.offset = r.offset ∧ (log.start seg).base.isSome = true := by
  cases hhas : seg.has TcpFlags.syn with
  | true =>
      refine ⟨h.note_syn hhas, ?_, ?_, ?_⟩
      · show (r.noteSyn seg.seq).available = _
        unfold Reassembler.noteSyn
        split <;> rfl
      · show (r.noteSyn seg.seq).offset = _
        unfold Reassembler.noteSyn
        split <;> rfl
      · cases hsome : log.base with
        | none => rw [SideLog.start_of_none hsome (by rw [hhas]; rfl)]; rfl
        | some base => rw [SideLog.start_of_base (by rw [hsome]; rfl), hsome]; rfl
  | false =>
      rw [hhas, Bool.false_or] at hbase
      rw [SideLog.start_of_base hbase]
      exact ⟨h, rfl, rfl, hbase⟩

/-- What a reassembler gets with a segment without a payload. -/
theorem Received.touch (h : Received log bytes r) {seg : TcpSegment} (hempty : seg.payload = []) :
    let noted := if seg.has TcpFlags.syn then r.noteSyn seg.seq else r
    Received (log.add seg) bytes noted ∧ noted.available = r.available ∧
      noted.offset = r.offset := by
  intro noted
  have hadd : log.add seg = log.start seg := by rw [SideLog.add, hempty]; rfl
  rw [hadd]
  by_cases hbase : (seg.has TcpFlags.syn || log.base.isSome) = true
  · obtain ⟨hreceived, havailable, hoffset, -⟩ := h.noted hbase
    exact ⟨hreceived, havailable, hoffset⟩
  · obtain ⟨hhas, -⟩ := Bool.or_eq_false_iff.mp (Bool.eq_false_iff.mpr hbase)
    have hstart : log.start seg = log := by
      rw [SideLog.start, hhas, hempty]
      simp
    have hplain : noted = r := if_neg (by rw [hhas]; exact Bool.false_ne_true)
    rw [hplain, hstart]
    exact ⟨h, rfl, rfl⟩

/-- What a reassembler gets with a segment with a payload, the SYN noted first. -/
theorem Received.segment (h : Received log bytes r) {seg : TcpSegment}
    (hpayload : seg.payload ≠ [])
    (hahead : seqDelta seg.seq
      ((if seg.has TcpFlags.syn then r.noteSyn seg.seq else r).start seg.seq).nextSeq ≤ 0)
    (hsyn : seg.has TcpFlags.syn = true → (log.add seg).top = log.top) (nowUs : Nat) :
    let noted := if seg.has TcpFlags.syn then r.noteSyn seg.seq else r
    let pushed := noted.push seg.seq seg.payload nowUs
    (log.add seg).base.isSome = true ∧
      ∃ more, Received (log.add seg) (bytes ++ more) pushed.1 ∧ pushed.2 = false ∧
        pushed.1.available = r.available ++ more ∧ pushed.1.offset = r.offset := by
  intro noted pushed
  by_cases hbase : (seg.has TcpFlags.syn || log.base.isSome) = true
  · -- the base is known, from before or from the SYN
    obtain ⟨hreceived, havailable, hoffset, hsome⟩ := h.noted hbase
    obtain ⟨base, hbase'⟩ := Option.isSome_iff_exists.mp hsome
    have hinit := (hreceived.started base hbase').1
    have hfixed : (if seg.has TcpFlags.syn then r.noteSyn seg.seq else r).start seg.seq =
        if seg.has TcpFlags.syn then r.noteSyn seg.seq else r := if_pos hinit
    rw [hfixed] at hahead
    have htop : (log.start seg).top = log.top := by
      unfold SideLog.start
      split <;> rfl
    obtain ⟨more, hmore, hgap, havailable', hoffset'⟩ := hreceived.push_started hbase' hpayload
      hahead (fun hhas => (hsyn hhas).trans htop.symm) nowUs
    refine ⟨?_, more, hmore, hgap, havailable'.trans (by rw [havailable]), hoffset'.trans hoffset⟩
    rw [SideLog.add, SideLog.put_base]
    exact hsome
  · -- the payload starts the stream
    obtain ⟨hhas, hnone⟩ := Bool.or_eq_false_iff.mp (Bool.eq_false_iff.mpr hbase)
    have hunset : log.base = none :=
      Option.not_isSome_iff_eq_none.mp (by rw [hnone]; exact Bool.false_ne_true)
    have hplain : noted = r := if_neg (by rw [hhas]; exact Bool.false_ne_true)
    have hstarts : (seg.has TcpFlags.syn || !seg.payload.isEmpty) = true := by
      rw [hhas, Bool.false_or, Bool.not_eq_true', Bool.eq_false_iff, Ne, List.isEmpty_iff]
      exact hpayload
    have hpushed : pushed = r.push seg.seq seg.payload nowUs := by
      show noted.push _ _ _ = _
      rw [hplain]
    rw [hpushed]
    refine ⟨?_, seg.payload, h.push_first hunset hhas hpayload nowUs⟩
    rw [SideLog.add, SideLog.put_base, SideLog.start_of_none hunset hstarts]
    rfl

end H2Tap
