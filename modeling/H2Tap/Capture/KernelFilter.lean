import H2Tap.Capture.Alignment
import H2Tap.Capture.Conservative

/-!
# A daemon behind the kernel filter

With a filter attached to its socket the daemon does not see every packet. `PacketSocket::open`
attaches one if there are some ports, but not too many. All that the daemon can miss are segments on
a watched port behind an IPv6 extension header (`kernel_filter_hides`): in every other respect its
runs are those of a daemon that filters by itself.
-/

namespace H2Tap

open Lib

/-- `PacketSocket::open`: whether packets are filtered in the kernel. `attached` says whether the
kernel took the filter. -/
def filtersInKernel (ports : List UInt16) (kernelFilter attached : Bool) : Bool :=
  kernelFilter && !ports.isEmpty && decide (ports.length ≤ maxFilterPorts) && attached

/-- The kernel hands a frame to the daemon if the filter returns how much of it to keep. -/
def passesKernel (ports : List UInt16) (frame : Bytes) : Bool :=
  (Bpf.run (buildFilter ports) frame).any fun kept => kept ≠ 0

/-- Whether the daemon gets to see an event. -/
def CaptureEvent.delivered (filtered : Bool) (ports : List UInt16) : CaptureEvent → Bool
  | .packet _ frame => !filtered || passesKernel ports frame
  | _ => true

/-- A packet that the daemon should see, behind an extension header. -/
def CaptureEvent.hidden (cfg : Config) : CaptureEvent → Bool
  | .packet _ frame => (cfg.interesting frame).isSome && decide (ExtensionFirst frame)
  | _ => false

variable {cfg : Config} {frame : Bytes}

/-- Behind the filter, a packet of interest passes unless it is hidden. -/
theorem passes_kernel_iff (hports : cfg.ports ≠ []) (hfew : cfg.ports.length ≤ maxFilterPorts)
    (hinteresting : (cfg.interesting frame).isSome = true) :
    passesKernel cfg.ports frame = true ↔ ¬ExtensionFirst frame := by
  obtain ⟨seg, hseg⟩ := Option.isSome_iff_exists.mp hinteresting
  obtain ⟨hparse, hport⟩ := Option.filter_eq_some_iff.mp hseg
  have hwatched : Watched cfg.ports seg := by
    simpa [Watched, hports] using hport
  rw [← accepts_iff_of_watched hparse hwatched, passesKernel, run_build_filter hfew]
  cases accepts cfg.ports frame <;> simp [verdict]

/-- What the filter does not deliver is hidden, or does not interest the daemon. -/
theorem quiet_of_not_delivered [HuffmanDecoding] (hports : cfg.ports ≠ [])
    (hfew : cfg.ports.length ≤ maxFilterPorts) {event : CaptureEvent}
    (hlost : event.delivered true cfg.ports = false) (hplain : event.hidden cfg = false)
    (d : Daemon) : d.step cfg event = (d, .quiet) := by
  cases event with
  | tick nowUs => cases hlost
  | start req nowUs => cases hlost
  | stop id => cases hlost
  | packet nowUs frame =>
      have hnone : cfg.interesting frame = none := by
        by_contra hsome
        have hsome := Option.isSome_iff_ne_none.mpr hsome
        have hext : ¬ExtensionFirst frame := by
          simpa [CaptureEvent.hidden, hsome] using hplain
        have hpasses := (passes_kernel_iff hports hfew hsome).mpr hext
        simp [CaptureEvent.delivered, hpasses] at hlost
      show (d.onPacket cfg nowUs frame, CaptureOutput.quiet) = _
      rw [Daemon.onPacket, hnone]

/-- A packet that is delivered is not hidden. -/
theorem not_hidden_of_delivered (hports : cfg.ports ≠ [])
    (hfew : cfg.ports.length ≤ maxFilterPorts) {event : CaptureEvent}
    (hseen : event.delivered true cfg.ports = true) : event.hidden cfg = false := by
  cases event with
  | tick nowUs => rfl
  | start req nowUs => rfl
  | stop id => rfl
  | packet nowUs frame =>
      rw [CaptureEvent.hidden, Bool.and_eq_false_imp]
      intro hsome
      have hpasses : passesKernel cfg.ports frame = true := hseen
      exact decide_eq_false ((passes_kernel_iff hports hfew hsome).mp hpasses)

end H2Tap
