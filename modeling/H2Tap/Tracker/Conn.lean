import H2Tap.Conn.Direction
import H2Tap.Packet

/-!
# A tracked connection

`tracker.rs`: the two directions of a connection and what `Tracker::on_segment` and `Tracker::tick`
do to them once the connection is found. `onSegment` also returns the frames that the source drops
when it has read the table sizes out of them.
-/

namespace H2Tap

/-! ## Directions -/

/-- A direction, and when the bytes that it holds but has not framed first appeared. -/
structure DirTrack where
  dir : Direction
  pendingSinceUs : Option Nat
  deriving DecidableEq

namespace DirTrack

/-- `DirTrack::new`. -/
def new (fromStart expectPreface : Bool) (tableLimit : Nat) : DirTrack where
  dir :=
    (if fromStart then Direction.fromConnectionStart false expectPreface
      else Direction.joinedMidstream false).setTableTrackLimit tableLimit
  pendingSinceUs := none

/-- `DirTrack::after_feed`. -/
def afterFeed (t : DirTrack) (nowUs : Nat) : DirTrack :=
  if t.dir.reasm.available.isEmpty then { t with pendingSinceUs := none }
  else if t.pendingSinceUs.isNone then { t with pendingSinceUs := some nowUs }
  else t

@[simp] theorem dir_after_feed (t : DirTrack) (nowUs : Nat) : (t.afterFeed nowUs).dir = t.dir := by
  unfold afterFeed
  split
  · rfl
  · split <;> rfl

/-- `apply_peer_capacity` on the decoder of the direction. -/
def applyPeerCapacity (t : DirTrack) (n : Nat) : DirTrack :=
  { t with dir := t.dir.applyPeerCapacity n }

end DirTrack

/-! ## The connection -/

/-- `Conn`, without the addresses and the name. -/
structure Conn where
  lastSeenUs : Nat
  closedAtUs : Option Nat
  c2s : DirTrack
  s2c : DirTrack
  deriving DecidableEq

namespace Conn

/-- A connection at its first segment. Only a bare SYN proves that the stream is seen from its first
byte. -/
def new (freshSyn : Bool) (tableLimit nowUs : Nat) : Conn where
  lastSeenUs := nowUs
  closedAtUs := none
  c2s := .new freshSyn freshSyn tableLimit
  s2c := .new freshSyn false tableLimit

/-- `Conn::dir_mut`, for reading. -/
def dir (c : Conn) (isC2s : Bool) : DirTrack := if isC2s then c.c2s else c.s2c

/-- `Conn::dir_mut`, for writing. -/
def setDir (c : Conn) (isC2s : Bool) (t : DirTrack) : Conn :=
  if isC2s then { c with c2s := t } else { c with s2c := t }

@[simp] theorem dir_set_dir (c : Conn) (isC2s : Bool) (t : DirTrack) :
    (c.setDir isC2s t).dir isC2s = t := by
  cases isC2s <;> rfl

@[simp] theorem dir_set_dir_not (c : Conn) (isC2s : Bool) (t : DirTrack) :
    (c.setDir isC2s t).dir (!isC2s) = c.dir (!isC2s) := by
  cases isC2s <;> rfl

@[simp] theorem dir_not_set_dir (c : Conn) (isC2s : Bool) (t : DirTrack) :
    (c.setDir (!isC2s) t).dir isC2s = c.dir isC2s := by
  cases isC2s <;> rfl

/-- What a segment's flags do. -/
def noteFlags (c : Conn) (isC2s : Bool) (seg : TcpSegment) (nowUs : Nat) : Conn :=
  let c := { c with lastSeenUs := nowUs }
  let t := c.dir isC2s
  let c :=
    if seg.has TcpFlags.syn then
      c.setDir isC2s { t with dir := { t.dir with reasm := t.dir.reasm.noteSyn seg.seq } }
    else c
  if seg.has TcpFlags.rst || seg.has TcpFlags.fin then
    { c with closedAtUs := some (c.closedAtUs.getD nowUs) }
  else c

variable [HuffmanDecoding]

/-- `Tracker::on_segment`, once the connection is found. -/
def onSegment (c : Conn) (isC2s : Bool) (seg : TcpSegment) (nowUs : Nat) :
    Conn × List ProcessedFrame :=
  let c := c.noteFlags isC2s seg nowUs
  if seg.payload.isEmpty then (c, [])
  else
    let t := c.dir isC2s
    let fed := t.dir.feed seg.seq seg.payload nowUs
    let c := c.setDir isC2s ({ t with dir := fed.1 }.afterFeed nowUs)
    -- SETTINGS_HEADER_TABLE_SIZE bounds the encoder of the opposite direction
    let caps := Direction.settingsSizes fed.2
    (c.setDir (!isC2s) (caps.foldl DirTrack.applyPeerCapacity (c.dir (!isC2s))), fed.2)

/-- `Tracker::tick` on a connection. -/
def tick (c : Conn) (nowUs : Nat) : Conn :=
  { c with
    c2s := { c.c2s with dir := (c.c2s.dir.tick nowUs).1 }
    s2c := { c.s2c with dir := (c.s2c.dir.tick nowUs).1 } }

/-- A connection after the SYNs of both endpoints. -/
def handshake (tableLimit : Nat) (clientIsn serverIsn : Seq) (nowUs : Nat) : Conn :=
  let opened := ((new true tableLimit nowUs).onSegment true ⟨clientIsn, TcpFlags.syn, []⟩ nowUs).1
  (opened.onSegment false ⟨serverIsn, TcpFlags.syn ||| TcpFlags.ack, []⟩ nowUs).1

omit [HuffmanDecoding] in
/-- Without a SYN the flags leave the directions alone. -/
theorem dir_note_flags {c : Conn} {isC2s : Bool} {seg : TcpSegment} (side : Bool) (nowUs : Nat)
    (hsyn : seg.has TcpFlags.syn = false) : (c.noteFlags isC2s seg nowUs).dir side =
      c.dir side := by
  simp only [noteFlags, hsyn, Bool.false_eq_true, if_false]
  split <;> rfl

/-- A segment with data and without a SYN feeds one direction, and its table sizes go to the
other. -/
theorem on_segment_dir (c : Conn) (isC2s : Bool) {seg : TcpSegment} (nowUs : Nat)
    (hsyn : seg.has TcpFlags.syn = false) (hdata : seg.payload.isEmpty = false) :
    let fed := (c.dir isC2s).dir.feed seg.seq seg.payload nowUs
    ((c.onSegment isC2s seg nowUs).1.dir isC2s).dir = fed.1 ∧
      (c.onSegment isC2s seg nowUs).1.dir (!isC2s) =
        (Direction.settingsSizes fed.2).foldl DirTrack.applyPeerCapacity (c.dir (!isC2s)) ∧
      (c.onSegment isC2s seg nowUs).2 = fed.2 := by
  intro fed
  simp only [onSegment, hdata, Bool.false_eq_true, if_false, dir_note_flags _ _ hsyn,
    dir_not_set_dir, dir_set_dir, dir_set_dir_not, DirTrack.dir_after_feed]
  exact ⟨rfl, rfl, rfl⟩

/-- A segment without data and without a SYN does nothing to the directions. -/
theorem on_segment_empty (c : Conn) (isC2s : Bool) {seg : TcpSegment} (side : Bool) (nowUs : Nat)
    (hsyn : seg.has TcpFlags.syn = false) (hempty : seg.payload.isEmpty = true) :
    (c.onSegment isC2s seg nowUs).1.dir side = c.dir side ∧
    (c.onSegment isC2s seg nowUs).2 = [] := by
  simp only [onSegment, hempty, if_true, dir_note_flags _ _ hsyn, and_self]

end Conn

/-! ## Both directions -/

namespace Direction

/-- A direction after the SYN of a segment, if it has one. -/
def noted (d : Direction) (seg : TcpSegment) : Direction :=
  if seg.has TcpFlags.syn then { d with reasm := d.reasm.noteSyn seg.seq } else d

variable [HuffmanDecoding]

/-- What a segment does to the direction of its sender. -/
def onSegment (d : Direction) (seg : TcpSegment) (nowUs : Nat) : Direction × List ProcessedFrame :=
  if seg.payload.isEmpty then (d.noted seg, [])
  else (d.noted seg).feed seg.seq seg.payload nowUs

/-- What a segment does to the directions of a connection: its sender's receives it, and the other
one learns the table sizes. -/
def bothOnSegment (dirs : Bool → Direction) (isC2s : Bool) (seg : TcpSegment) (nowUs : Nat) :
    Bool → Direction :=
  fun side =>
    if side = isC2s then ((dirs isC2s).onSegment seg nowUs).1
    else (settingsSizes ((dirs isC2s).onSegment seg nowUs).2).foldl applyPeerCapacity (dirs side)

end Direction

theorem DirTrack.dir_peer_capacities (sizes : List Nat) (t : DirTrack) :
    (sizes.foldl DirTrack.applyPeerCapacity t).dir =
      sizes.foldl Direction.applyPeerCapacity t.dir := by
  induction sizes generalizing t with
  | nil => rfl
  | cons n sizes ih => exact ih (t.applyPeerCapacity n)

namespace Conn

open Direction

/-- Both directions of a connection. -/
def dirs (c : Conn) (side : Bool) : Direction := (c.dir side).dir

/-- What the flags of a segment do to the directions. -/
theorem track_note_flags (c : Conn) (isC2s : Bool) (seg : TcpSegment) (nowUs : Nat) :
    (c.noteFlags isC2s seg nowUs).dir isC2s =
        { c.dir isC2s with dir := (c.dirs isC2s).noted seg } ∧
      (c.noteFlags isC2s seg nowUs).dir (!isC2s) = c.dir (!isC2s) := by
  cases isC2s <;> cases hsyn : seg.has TcpFlags.syn <;>
    cases hend : seg.has TcpFlags.rst || seg.has TcpFlags.fin <;>
    simp [noteFlags, dirs, dir, setDir, noted, hsyn, hend]

variable [HuffmanDecoding]

/-- What a segment does to the directions: its sender's receives it, and the other one learns the
table sizes. -/
theorem track_on_segment (c : Conn) (isC2s : Bool) (seg : TcpSegment) (nowUs : Nat) :
    (c.onSegment isC2s seg nowUs).1.dir isC2s =
        (if seg.payload.isEmpty then { c.dir isC2s with dir := (c.dirs isC2s).noted seg }
        else ({ c.dir isC2s with
          dir := ((c.dirs isC2s).onSegment seg nowUs).1 } : DirTrack).afterFeed nowUs) ∧
      (c.onSegment isC2s seg nowUs).1.dir (!isC2s) =
        (settingsSizes ((c.dirs isC2s).onSegment seg nowUs).2).foldl DirTrack.applyPeerCapacity
          (c.dir (!isC2s)) := by
  obtain ⟨hown, hother⟩ := track_note_flags c isC2s seg nowUs
  unfold Conn.onSegment Direction.onSegment
  dsimp only
  split
  · exact ⟨hown, hother⟩
  · rw [dir_not_set_dir, dir_set_dir, dir_set_dir, dir_set_dir_not, hown, hother]
    exact ⟨rfl, rfl⟩

theorem dirs_on_segment (c : Conn) (isC2s : Bool) (seg : TcpSegment) (nowUs : Nat) :
    (c.onSegment isC2s seg nowUs).1.dirs = bothOnSegment c.dirs isC2s seg nowUs := by
  obtain ⟨hown, hother⟩ := track_on_segment c isC2s seg nowUs
  have hne : (!isC2s) ≠ isC2s := by simp
  funext side
  rcases Bool.eq_or_eq_not side isC2s with rfl | rfl
  · rw [dirs, hown, bothOnSegment, if_pos rfl]
    split
    · next hempty => rw [Direction.onSegment, if_pos hempty]
    · rw [DirTrack.dir_after_feed]
  · rw [dirs, hother, DirTrack.dir_peer_capacities, bothOnSegment, if_neg hne]
    rfl

end Conn

end H2Tap
