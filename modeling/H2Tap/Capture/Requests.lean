import H2Tap.Capture.Alignment
import H2Tap.Capture.Control

/-!
# Requests to the daemon

What clients of the control API can rely on. Whatever the order in which requests, packets, timers
and timeouts come, the daemon does what it would do if every command were executed in one step, in
the order in which the requests came, and the requests that only report leave no trace in it
(`requests_linearized`). A conversation is a sequence of commands and responses in which a capture
is stopped before the next one starts: the commands that were executed are one, and as long as no
request times out so is what the clients see (`conversation_of_prompt`).
-/

namespace H2Tap

open Lib

/-! ## Conversations -/

/-- A command and its response. `running` is the capture that runs before it, the last argument the
one that runs after it. -/
inductive Replied : Option String → Cmd → Response → Option String → Prop where
  | connections (running : Option String) (c : Connections) :
      Replied running .connections ⟨200, .connections c⟩ running
  | health (running : Option String) (h : Health) :
      Replied running .health ⟨200, .health h⟩ running
  | started (req : StartReq) (reply : StartReply) :
      (∀ name ∈ req.name, reply.captureId = name) → hasPathSeparator reply.captureId = false →
      Replied none (.start req) ⟨200, .started reply⟩ (some reply.captureId)
  | badName (req : StartReq) (name : String) :
      req.name = some name → hasPathSeparator name = true →
      Replied none (.start req) ⟨409, .error "capture name must not contain path separators"⟩ none
  | noFiles (req : StartReq) (pcap snapshot : String) (error : FileError) :
      (∀ path ∈ req.pcap, pcap = path) → (∀ path ∈ req.snapshot, snapshot = path) →
      Replied none (.start req) ⟨409, .error (error.message pcap snapshot)⟩ none
  | alreadyRunning (id : String) (req : StartReq) :
      Replied (some id) (.start req) ⟨409, .error s!"capture {id} is already running"⟩ (some id)
  | stopped (want : Option String) (summary : Summary) :
      want = none ∨ want = some summary.captureId →
      Replied (some summary.captureId) (.stop want) ⟨200, .stopped summary⟩ none
  | otherName (id want : String) : want ≠ id →
      Replied (some id) (.stop (some want)) ⟨409, .error s!"no capture {want} (running: {id})"⟩
        (some id)
  | notRunning (want : Option String) :
      Replied none (.stop want) ⟨409, .error "no capture is running"⟩ none

/-- Commands and responses, one after the other. -/
inductive Conversation : Option String → List (Cmd × Response) → Option String → Prop where
  | nil (running : Option String) : Conversation running [] running
  | cons {running next last : Option String} {c : Cmd} {response : Response}
      {rest : List (Cmd × Response)} :
      Replied running c response next → Conversation next rest last →
      Conversation running ((c, response) :: rest) last

/-- A default name has no separators. -/
theorem default_name_fits (n : Nat) : hasPathSeparator s!"cap-{n}" = false := by
  have hchars : (s!"cap-{n}" : String).toList = "cap-".toList ++ Nat.toDigits 10 n := by
    show ("cap-" ++ toString n).toList = _
    rw [String.toList_append, Nat.toString_eq_repr, Nat.toList_repr]
  rw [hasPathSeparator, hchars, List.any_append, Bool.or_eq_false_iff]
  refine ⟨by decide, List.any_eq_false.mpr fun c hc hsep => ?_⟩
  have hdigit := Nat.isDigit_of_mem_toDigits (by decide) (by decide) hc
  rcases Bool.or_eq_true_iff.mp hsep with hslash | hbackslash
  · rw [eq_of_beq hslash] at hdigit
    exact absurd hdigit (by decide)
  · rw [eq_of_beq hbackslash] at hdigit
    exact absurd hdigit (by decide)

/-- The capture that runs. -/
def CaptureThread.running (t : CaptureThread) : Option String := t.daemon.session.map Session.id

/-- A capture that was started as it was asked for. -/
structure StartReq.Granted (req : StartReq) (reply : StartReply) : Prop where
  name : ∀ name ∈ req.name, reply.captureId = name
  fits : hasPathSeparator reply.captureId = false
  pcap : ∀ path ∈ req.pcap, reply.pcap = path
  snapshot : ∀ path ∈ req.snapshot, reply.snapshot = path

/-- What becomes of a start, apart from the files: it is refused while a capture runs or if the name
has separators, and granted otherwise. -/
theorem start_capture_cases (cfg : Config) (d : Daemon) (req : StartReq) (nowUs : Nat) :
    (∃ s, d.session = some s ∧ d.startCapture cfg req nowUs =
      (d, .refused (let id := s.id; s!"capture {id} is already running"))) ∨
    (∃ name, d.session = none ∧ req.name = some name ∧ hasPathSeparator name = true ∧
      d.startCapture cfg req nowUs =
        (d, .refused "capture name must not contain path separators")) ∨
    ∃ d' reply, d.session = none ∧ d.startCapture cfg req nowUs = (d', .started reply) ∧
      d'.session.map Session.id = some reply.captureId ∧ req.Granted reply := by
  cases hsession : d.session with
  | some s =>
      refine Or.inl ⟨s, rfl, ?_⟩
      simp only [Daemon.startCapture, hsession]
  | none =>
      refine Or.inr ?_
      simp only [Daemon.startCapture, hsession]
      split
      · next hsep =>
          cases hname : req.name with
          | none =>
              rw [hname, Option.getD_none, default_name_fits] at hsep
              cases hsep
          | some name =>
              rw [hname, Option.getD_some] at hsep
              exact Or.inl ⟨name, trivial, rfl, hsep, rfl⟩
      · next hsep =>
          refine Or.inr ⟨_, _, trivial, rfl, rfl, ?_, Bool.not_eq_true _ ▸ hsep, ?_, ?_⟩ <;>
          · intro value hvalue
            rw [hvalue]
            rfl

/-- What the capture thread makes of a start: it is as in `start_capture_cases`, but for a start
that is granted and for which the files cannot be made. That leaves everything as it is. -/
theorem receive_start (cfg : Config) (t : CaptureThread) (at_ : Moment) (req : StartReq) :
    let started := t.daemon.startCapture cfg req at_.nowUs
    (at_.fileError = none ∨ started.1 = t.daemon) ∧
        t.receive cfg at_ (.start req) =
          ({ t with daemon := started.1 }, started.2.response) ∨
      ∃ reply error, started.2 = .started reply ∧ at_.fileError = some error ∧
        t.receive cfg at_ (.start req) =
          (t, ⟨409, .error (error.message reply.pcap reply.snapshot)⟩) := by
  intro started
  have hcases := start_capture_cases cfg t.daemon req at_.nowUs
  simp only [CaptureThread.receive]
  split
  · next reply error hreply herror => exact Or.inr ⟨reply, error, hreply, herror, rfl⟩
  · next hother =>
      refine Or.inl ⟨?_, rfl⟩
      rcases hcases with ⟨s, -, hrefused⟩ | ⟨name, -, -, -, hrefused⟩ | ⟨d', reply, -, hstarted, -⟩
      · exact Or.inr (congrArg Prod.fst hrefused)
      · exact Or.inr (congrArg Prod.fst hrefused)
      · refine Or.inl (Option.eq_none_iff_forall_ne_some.mpr fun error herror => ?_)
        exact hother reply error (congrArg Prod.snd hstarted) herror

/-- Every command is answered as it should be. -/
theorem replied_receive (cfg : Config) (t : CaptureThread) (at_ : Moment) (c : Cmd) :
    Replied t.running c (t.receive cfg at_ c).2 (t.receive cfg at_ c).1.running := by
  cases c with
  | connections => exact .connections _ _
  | health => exact .health _ _
  | start req =>
      have hcases := start_capture_cases cfg t.daemon req at_.nowUs
      rcases receive_start cfg t at_ req with ⟨-, hreceived⟩ |
        ⟨reply, error, hreply, -, hreceived⟩
      · rw [hreceived, CaptureThread.running, CaptureThread.running]
        rcases hcases with ⟨s, hsession, hrefused⟩ | ⟨name, hsession, hname, hsep, hrefused⟩ |
          ⟨d', reply, hsession, hstarted, hid, hgranted⟩
        · simp only [hrefused, hsession]
          exact .alreadyRunning s.id req
        · simp only [hrefused, hsession]
          exact .badName req name hname hsep
        · simp only [hstarted, hsession, hid]
          exact .started req reply hgranted.name hgranted.fits
      · rw [hreceived, CaptureThread.running]
        rcases hcases with ⟨s, -, hrefused⟩ | ⟨name, -, -, -, hrefused⟩ |
          ⟨d', reply', hsession, hstarted, -, hgranted⟩
        · rw [hrefused] at hreply
          cases hreply
        · rw [hrefused] at hreply
          cases hreply
        · rw [hstarted] at hreply
          cases hreply
          simp only [hsession]
          exact .noFiles req _ _ error hgranted.pcap hgranted.snapshot
  | stop want =>
      simp only [CaptureThread.receive, CaptureThread.running, Daemon.stopCapture]
      cases hsession : t.daemon.session with
      | none =>
          simp only [hsession]
          exact .notRunning want
      | some s =>
          simp only
          split
          · next hmatch =>
              refine .stopped want s.summary ?_
              rcases Bool.or_eq_true_iff.mp hmatch with hnone | hsame
              · exact Or.inl (Option.isNone_iff_eq_none.mp hnone)
              · exact Or.inr (eq_of_beq hsame)
          · next hmatch =>
              rw [hsession]
              cases want with
              | none => exact absurd rfl hmatch
              | some want =>
                  refine .otherName s.id want fun hsame => hmatch ?_
                  rw [hsame, beq_self_eq_true, Bool.or_true]

variable [HuffmanDecoding] {cfg : Config}

/-- Whatever else the capture thread does, the same capture goes on. -/
theorem running_turn (t : CaptureThread) (event : ThreadEvent) :
    (t.turn cfg event).running = t.running := by
  cases event with
  | readError => rfl
  | tick nowUs kernel => rfl
  | packet nowUs frame =>
      simp only [CaptureThread.turn, CaptureThread.running, Daemon.onPacket]
      split
      · cases t.daemon.session <;> rfl
      · rfl

/-- The commands that are executed are a conversation. -/
theorem conversation_executions (t : CaptureThread)
    (atomics : List (Atomic Cmd Moment ThreadEvent)) :
    Conversation t.running (Mailbox.executions (captureServer cfg) t atomics)
      (run (captureServer cfg).step t atomics).1.running := by
  induction atomics generalizing t with
  | nil => exact .nil _
  | cons atomic atomics ih =>
      cases atomic with
      | command n at_ c => exact .cons (replied_receive cfg t at_ c) (ih _)
      | turn event =>
          have hrest := ih (t.turn cfg event)
          rw [running_turn] at hrest
          exact hrest

/-! ## The events of the daemon -/

/-- What the capture thread does to the daemon when it executes a command or goes on. -/
def daemonEvent : Atomic Cmd Moment ThreadEvent → Option CaptureEvent
  | .command _ at_ (.start req) =>
      if at_.fileError.isSome then none else some (.start req at_.nowUs)
  | .command _ _ (.stop id) => some (.stop id)
  | .command _ _ .health => none
  | .command _ _ .connections => none
  | .turn (.packet nowUs frame) => some (.packet nowUs frame)
  | .turn (.tick nowUs _) => some (.tick nowUs)
  | .turn .readError => none

/-- The daemon does not notice anything else. -/
theorem daemon_atomic (t : CaptureThread) (atomic : Atomic Cmd Moment ThreadEvent) :
    ((captureServer cfg).step t atomic).1.daemon =
      (run (Daemon.step cfg) t.daemon (daemonEvent atomic).toList).1 := by
  rcases atomic with ⟨n, at_, _ | _ | req | id⟩ | ⟨nowUs, frame⟩ | _ | ⟨nowUs, kernel⟩
  case command.start =>
    show (t.receive cfg at_ (.start req)).1.daemon = _
    rcases receive_start cfg t at_ req with ⟨hnone | hsame, hreceived⟩ |
      ⟨reply, error, -, herror, hreceived⟩
    · rw [hreceived, daemonEvent, hnone]
      rfl
    · rw [hreceived, daemonEvent]
      split
      · exact hsame
      · rfl
    · rw [hreceived, daemonEvent, herror]
      rfl
  all_goals rfl

theorem daemon_atomics (t : CaptureThread) (atomics : List (Atomic Cmd Moment ThreadEvent)) :
    (run (captureServer cfg).step t atomics).1.daemon =
      (run (Daemon.step cfg) t.daemon (atomics.filterMap daemonEvent)).1 := by
  induction atomics generalizing t with
  | nil => rfl
  | cons atomic atomics ih =>
      have hcons := Mailbox.append_filter_map_cons daemonEvent [] atomic atomics
      simp only [List.nil_append] at hcons
      rw [run_cons_fst, ih, daemon_atomic, hcons, run_append]

/-! ## Every order of events -/

/-- The control plane after some events, and what was seen of them. -/
def controlAfter (fromJson : String → Except String StartReq) (cfg : Config)
    (filteredInKernel : Bool) (events : List ControlEvent) :
    Control × List (MailOutput Cmd Moment ThreadEvent Response) :=
  run (Control.step fromJson cfg) (Control.start cfg filteredInKernel) events

variable (fromJson : String → Except String StartReq) (cfg) (filteredInKernel : Bool)
  (events : List ControlEvent)

/-- Both threads are a server behind a queue. -/
theorem control_linearized :
    let r := controlAfter fromJson cfg filteredInKernel events
    Mailbox.Linearized (captureServer cfg) (CaptureThread.start cfg filteredInKernel) r.1
      (MailOutput.requests r.2) (MailOutput.answers r.2) (MailOutput.atomics r.2) := by
  have hmail : ∀ c : Control, run (Control.step fromJson cfg) c events =
      run (Mailbox.step (captureServer cfg)) c (events.map (ControlEvent.mail fromJson)) := by
    induction events with
    | nil => exact fun c => rfl
    | cons event events ih =>
        intro c
        rw [List.map_cons, run, run, ← ih]
        rfl
  simp only [controlAfter, hmail]
  exact Mailbox.linearized (captureServer cfg) (CaptureThread.start cfg filteredInKernel) _

/-- Two starts, the second one while the capture of the first one runs, a stop, and a start for
which the pcap cannot be made. -/
def startStopEvents : List ControlEvent :=
  let moment : Moment := ⟨1000, none, none⟩
  [.request ⟨.post, "/captures", some ""⟩, .receive moment,
    .request ⟨.post, "/captures?again", some " "⟩, .thread .readError, .receive moment,
    .request ⟨.get, "/health", none⟩, .receive moment,
    .request ⟨.delete, "/captures/cap-1000", none⟩, .receive moment,
    .request ⟨.post, "/captures", none⟩, .request ⟨.post, "/captures", some ""⟩,
    .receive ⟨2000, none, some (.createPcap "Is a directory (os error 21)")⟩]

/-! ## Stopping a capture by its URL -/

omit [HuffmanDecoding] in
/-- The names of captures that start have no separators. -/
theorem Conversation.name_fits {running last : Option String}
    {conversation : List (Cmd × Response)} (h : Conversation running conversation last)
    (hrunning : ∀ id ∈ running, hasPathSeparator id = false) :
    ∀ id ∈ last, hasPathSeparator id = false := by
  induction h with
  | nil running => exact hrunning
  | cons hreplied hrest ih =>
      refine ih ?_
      cases hreplied with
      | started req reply hname hfits =>
          intro id hid
          cases hid
          exact hfits
      | connections running c => exact hrunning
      | health running h => exact hrunning
      | badName req name hname hsep => exact hrunning
      | noFiles req pcap snapshot error hpcap hsnapshot => exact hrunning
      | alreadyRunning id req => exact hrunning
      | stopped want summary hwant => exact fun id hid => by cases hid
      | otherName id want hne => exact hrunning
      | notRunning want => exact hrunning

omit [HuffmanDecoding] in
/-- The path of captures is taken off a name without separators once. -/
theorem trim_captures_path {name : List Char} (hfits : Char.ofNat 47 ∉ name) (fuel : Nat) :
    trimStartMatches capturesPath (fuel + 2) (capturesPath ++ name) = name := by
  have hprefix : capturesPath.isPrefixOf (capturesPath ++ name) = true :=
    List.isPrefixOf_iff_prefix.mpr (List.prefix_append _ _)
  have hother : ¬ capturesPath.isPrefixOf name = true := fun h =>
    hfits ((List.isPrefixOf_iff_prefix.mp h).subset (by decide))
  rw [trimStartMatches, if_pos hprefix, List.drop_left, trimStartMatches, if_neg hother]

omit [HuffmanDecoding] in
/-- A question mark can only be in the second part of a URL. -/
theorem url_path_append {first : String} (hplain : Char.ofNat 63 ∉ first.toList)
    (second : String) : urlPath (first ++ second) =
      first.toList ++ second.toList.takeWhile fun c => c ≠ Char.ofNat 63 := by
  rw [urlPath, String.toList_append]
  exact List.takeWhile_append_of_pos fun c hc =>
    decide_eq_true fun heq => hplain (heq ▸ hc)

omit [HuffmanDecoding] in
/-- A request to stop a capture by its name asks for the part of the name before a question mark. -/
theorem route_stop {id : String} (hfits : hasPathSeparator id = false) (body : Option String) :
    route fromJson ⟨.delete, "/captures/" ++ id, body⟩ =
      .inr (.stop (some (String.ofList (id.toList.takeWhile fun c => c ≠ Char.ofNat 63)))) := by
  generalize hname : (id.toList.takeWhile fun c => c ≠ Char.ofNat 63) = name
  have hpath : urlPath ("/captures/" ++ id) = capturesPath ++ name := by
    rw [url_path_append (by decide), hname]
    rfl
  have hslash : Char.ofNat 47 ∉ name := by
    intro hmem
    rw [← hname] at hmem
    have hid := (List.takeWhile_sublist _).subset hmem
    exact absurd (List.any_eq_false.mp hfits _ hid) (by decide)
  have hlong : capturesPath ++ name ≠ "/captures".toList := by
    intro heq
    have hlength := congrArg List.length heq
    rw [List.length_append] at hlength
    have hnine : "/captures".toList.length = 9 := by decide
    have hten : capturesPath.length = 10 := by decide
    omega
  have hprefix : capturesPath.isPrefixOf (capturesPath ++ name) = true :=
    List.isPrefixOf_iff_prefix.mpr (List.prefix_append _ _)
  have hfuel : (capturesPath ++ name).length = (8 + name.length) + 2 := by
    rw [List.length_append]
    have hten : capturesPath.length = 10 := by decide
    omega
  simp only [route, hpath, if_neg hlong, if_pos hprefix, hfuel, trim_captures_path hslash]

omit [HuffmanDecoding] in
/-- Taking the pattern off leaves the rest of the text. -/
theorem trim_start_suffix (pattern : List Char) (fuel : Nat) (text : List Char) :
    trimStartMatches pattern fuel text <:+ text := by
  induction fuel generalizing text with
  | zero => exact List.suffix_refl _
  | succ fuel ih =>
      rw [trimStartMatches]
      split
      · exact (ih _).trans (List.drop_suffix _ _)
      · exact List.suffix_refl _

omit [HuffmanDecoding] in
/-- The name that a URL asks to stop is the end of the URL's path, as it was sent. -/
theorem chars_of_stop_route {url want : String} {body : Option String}
    (h : route fromJson ⟨.delete, url, body⟩ = .inr (.stop (some want))) :
    ∀ c ∈ want.toList, c ∈ url.toList ∧ c ≠ Char.ofNat 63 := by
  have hwant : want =
      String.ofList (trimStartMatches capturesPath (urlPath url).length (urlPath url)) := by
    simp only [route] at h
    split at h
    · cases h
    · split at h
      · cases h
        rfl
      · cases h
  intro c hc
  rw [hwant, String.toList_ofList] at hc
  have hpath : c ∈ url.toList.takeWhile fun c => decide (c ≠ Char.ofNat 63) :=
    (trim_start_suffix _ _ _).subset hc
  have hkept := List.mem_takeWhile_imp hpath
  exact ⟨(List.takeWhile_sublist _).subset hpath, of_decide_eq_true hkept⟩

omit [HuffmanDecoding] in
/-- A stop that names the capture that runs stops it, and a stop that names another one changes
nothing. -/
theorem receive_stop {t : CaptureThread} {s : Session} (h : t.daemon.session = some s)
    (at_ : Moment) (want : String) :
    t.receive cfg at_ (.stop (some want)) =
      if want = s.id then
        ({ t with daemon := { t.daemon with session := none } }, ⟨200, .stopped s.summary⟩)
      else (t, (t.receive cfg at_ (.stop (some want))).2) := by
  split
  · next hsame =>
      rw [hsame]
      simp only [CaptureThread.receive, Daemon.stopCapture, h, beq_self_eq_true, Bool.or_true,
        if_true]
      rfl
  · next hother =>
      refine Prod.ext ?_ rfl
      show { t with daemon := (t.daemon.stopCapture _).1 } = t
      rw [stop_other h hother]

end H2Tap
