import H2Tap.Reassembly.Accounting
import H2Tap.Conn.ParseLoop

/-!
# The directions that callers produce

`Reachable` lists what callers do with a direction: they create it, set its limits, seed it, note a
SYN and feed it. Two things hold of every direction they produce: its reassembler counts right, and
nothing is left over from a closed header block.
-/

namespace H2Tap.Direction

section

variable [HuffmanDecoding]

/-- A direction that a caller can produce. -/
inductive Reachable : Direction → Prop where
  | joined (keepPayloads : Bool) : Reachable (joinedMidstream keepPayloads)
  | started (keepPayloads expectPreface : Bool) :
      Reachable (fromConnectionStart keepPayloads expectPreface)
  | limited {d : Direction} (n : Nat) : Reachable d → Reachable (d.setTableTrackLimit n)
  | seeded {d : Direction} (entries : List Field) (maxSize : Nat) (nextFrameSeq : Seq) :
      Reachable d → Reachable (d.seedFromSnapshot entries maxSize nextFrameSeq)
  | syn {d : Direction} (seq : Seq) : Reachable d →
      Reachable { d with reasm := d.reasm.noteSyn seq }
  | performed {d : Direction} (op : DirOp) : Reachable d → Reachable (d.perform op).1

omit [HuffmanDecoding] in
/-- Nothing is left over from a closed block. -/
def Idle (d : Direction) : Prop := d.blockHdr = none → d.block = [] ∧ d.blockPromised = none

omit [HuffmanDecoding] in
theorem Idle.of_same_blocks {d d' : Direction} (h : d.Idle) (hsame : SameBlocks d d') :
    d'.Idle := by
  unfold Idle
  rw [hsame.blockHdr, hsame.block, hsame.blockPromised]
  exact h

/-- Taking a frame opens a block, or closes it and leaves nothing over. -/
theorem TakeOutcome.idle {d d' : Direction} {hdr : FrameHeader} {payload : Bytes}
    {decoded : Option DecodedBlock} (h : TakeOutcome d hdr payload d' decoded) (hidle : d.Idle) :
    d'.Idle := by
  cases h with
  | other _ hheader hsame => exact hidle.of_same_blocks hsame
  | bad _ hheader hadd hsame => exact Idle.of_same_blocks (fun _ => ⟨rfl, rfl⟩) hsame
  | opened opened _ hheader hadd hend hsame =>
      refine Idle.of_same_blocks (fun hnone => ?_) hsame
      have hopen := (add_fragment_open hadd).1
      rw [hnone] at hopen
      cases hopen
  | failed opened _ dec e hheader hadd hend hdecode hsame =>
      exact Idle.of_same_blocks (fun _ => ⟨rfl, rfl⟩) hsame
  | decoded opened _ bhdr dec fields hheader hadd hend hbhdr hdecode hsame =>
      exact Idle.of_same_blocks (fun _ => ⟨rfl, rfl⟩) hsame

theorem idle_parse_step {d : Direction} (h : d.Idle) : d.parseStep.next.Idle := by
  have hcases := turn_cases d
  generalize d.parseStep = progress at hcases
  cases hcases with
  | stop d' hsame => exact h.of_same_blocks hsame
  | move d' hsame => exact h.of_same_blocks hsame
  | misaligned d' hsame =>
      exact Idle.of_same_blocks (d := { d with dec := d.dec.resetPartial }) h hsame
  | skip hdr hat hparse hwant => exact h
  | take hdr payload hframe => exact (take_frame_cases hframe).idle h

theorem idle_parse {d : Direction} (h : d.Idle) : d.parse.1.Idle :=
  parse_keeps (fun _ ht => idle_parse_step ht) h

omit [HuffmanDecoding] in
theorem idle_with_reassembled {d : Direction} (h : d.Idle) (pushed : Reassembler × Bool) :
    (d.withReassembled pushed).Idle := by
  unfold withReassembled
  split
  · exact fun _ => ⟨rfl, rfl⟩
  · exact h

/-- An operation keeps what holds between operations. -/
theorem accounted_idle_perform {d : Direction} (hreasm : d.reasm.Accounted) (hidle : d.Idle)
    (op : DirOp) : (d.perform op).1.reasm.Accounted ∧ (d.perform op).1.Idle := by
  have hpushed : ∀ pushed : Reassembler × Bool, pushed.1.Accounted →
      (d.withReassembled pushed).parse.1.reasm.Accounted ∧
        (d.withReassembled pushed).parse.1.Idle := fun pushed haccounted =>
    ⟨reasm_parse (fun _ n hr => hr.consume n) (by
        unfold withReassembled
        split <;> exact haccounted),
      idle_parse (idle_with_reassembled hidle pushed)⟩
  cases op with
  | feed seq data nowUs => exact hpushed _ (hreasm.push seq data nowUs)
  | tick nowUs =>
      simp only [perform, tick]
      split
      · exact hpushed _ (hreasm.check_timeout nowUs)
      · exact ⟨hreasm.check_timeout nowUs, hidle⟩
  | applyPeerCapacity n => exact ⟨hreasm, hidle⟩

/-- What holds of every direction that callers produce. -/
theorem Reachable.accounted_idle {d : Direction} (h : d.Reachable) :
    d.reasm.Accounted ∧ d.Idle := by
  induction h with
  | joined keepPayloads => exact ⟨Reassembler.accounted_new, fun _ => ⟨rfl, rfl⟩⟩
  | started keepPayloads expectPreface =>
      exact ⟨Reassembler.accounted_new, fun _ => ⟨rfl, rfl⟩⟩
  | limited n _ ih => exact ih
  | seeded entries maxSize nextFrameSeq _ ih => exact ⟨ih.1, fun _ => ⟨rfl, rfl⟩⟩
  | syn seq _ ih => exact ⟨ih.1.note_syn seq, ih.2⟩
  | performed op _ ih => exact accounted_idle_perform ih.1 ih.2 op

end

end H2Tap.Direction
