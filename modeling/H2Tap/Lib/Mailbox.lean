import H2Tap.Lib.Run

/-!
# A server behind a queue

A client asks a server by putting commands into a queue, and waits for the answer of one before it
asks again. It may give up waiting; the command stays in the queue and is executed all the same, and
its answer is thrown away. Some requests are answered on the spot. The server takes the commands in
turn, with other work in between.

`linearized` says that this is as good as a server that executes each command in one step: in the
order in which the commands were sent, each once, between its request and its answer.
-/

namespace H2Tap.Lib

/-- A server: how it answers a command at some time, and what else it does. -/
structure Server (σ ι τ ε ω : Type*) where
  answer : σ → τ → ι → σ × ω
  turn : σ → ε → σ

/-- The server, the commands that it has not taken yet, the request that the client waits for and
how many requests there were. -/
structure Mailbox (σ ι : Type*) where
  server : σ
  queue : List (Nat × ι)
  waiting : Option Nat
  asked : Nat

/-- What happens: the client asks, with a request that it can answer itself or a command, the server
takes a command, the client gives up, the server does something else. -/
inductive MailEvent (ι τ ε ω : Type*) where
  | ask (request : ω ⊕ ι)
  | serve (time : τ)
  | giveUp
  | turn (e : ε)

/-- How a request ends. -/
inductive Answer (ω : Type*) where
  | atOnce (a : ω)
  | served (a : ω)
  | timedOut
  deriving DecidableEq

/-- What the server does, command by command. -/
inductive Atomic (ι τ ε : Type*) where
  | command (number : Nat) (time : τ) (c : ι)
  | turn (e : ε)

/-- What is seen of an event: the request that was taken, the answer that was given, and what the
server did. -/
structure MailOutput (ι τ ε ω : Type*) where
  request : Option (ω ⊕ ι)
  answer : Option (Nat × Answer ω)
  atomic : Option (Atomic ι τ ε)

variable {σ ι τ ε ω : Type*}

/-- A server that executes each command in one step. -/
def Server.step (srv : Server σ ι τ ε ω) (s : σ) : Atomic ι τ ε → σ × Option (Nat × ω)
  | .command n time c => ((srv.answer s time c).1, some (n, (srv.answer s time c).2))
  | .turn e => (srv.turn s e, none)

namespace Mailbox

/-- Nothing was asked yet. -/
def start (s : σ) : Mailbox σ ι := ⟨s, [], none, 0⟩

/-- One event. A client that waits does not ask. -/
def step (srv : Server σ ι τ ε ω) (m : Mailbox σ ι) :
    MailEvent ι τ ε ω → Mailbox σ ι × MailOutput ι τ ε ω
  | .ask request =>
      if m.waiting.isSome then (m, ⟨none, none, none⟩)
      else
        match request with
        | .inl a =>
            ({ m with asked := m.asked + 1 }, ⟨some request, some (m.asked, .atOnce a), none⟩)
        | .inr c =>
            ({ m with
              queue := m.queue ++ [(m.asked, c)]
              waiting := some m.asked
              asked := m.asked + 1 }, ⟨some request, none, none⟩)
  | .serve time =>
      match m.queue with
      | [] => (m, ⟨none, none, none⟩)
      | (n, c) :: queue =>
          let served := srv.answer m.server time c
          if m.waiting = some n then
            ({ m with server := served.1, queue := queue, waiting := none },
              ⟨none, some (n, .served served.2), some (.command n time c)⟩)
          else
            ({ m with server := served.1, queue := queue }, ⟨none, none, some (.command n time c)⟩)
  | .giveUp =>
      match m.waiting with
      | none => (m, ⟨none, none, none⟩)
      | some n => ({ m with waiting := none }, ⟨none, some (n, .timedOut), none⟩)
  | .turn e => ({ m with server := srv.turn m.server e }, ⟨none, none, some (.turn e)⟩)

end Mailbox

/-! ## What was seen -/

namespace MailOutput

variable (outs : List (MailOutput ι τ ε ω))

/-- The requests, in their order. -/
def requests : List (ω ⊕ ι) := outs.filterMap MailOutput.request

/-- The answers. -/
def answers : List (Nat × Answer ω) := outs.filterMap MailOutput.answer

/-- What the server did. -/
def atomics : List (Atomic ι τ ε) := outs.filterMap MailOutput.atomic

end MailOutput

/-- The commands among some requests, each with its number. -/
def numberedCommands (requests : List (ω ⊕ ι)) : List (Nat × ι) :=
  requests.zipIdx.filterMap fun request => request.1.getRight?.map fun c => (request.2, c)

theorem numbered_commands_concat (requests : List (ω ⊕ ι)) (request : ω ⊕ ι) :
    numberedCommands (requests ++ [request]) =
      numberedCommands requests ++
        (request.getRight?.map fun c => (requests.length, c)).toList := by
  simp only [numberedCommands, List.zipIdx_append, List.filterMap_append, List.zipIdx_singleton,
    Nat.zero_add]
  cases request <;> rfl

/-- The command that was executed, with its number. -/
def Atomic.command? : Atomic ι τ ε → Option (Nat × ι)
  | .command n _ c => some (n, c)
  | .turn _ => none

/-- The answer of the server. -/
def Answer.served? : Nat × Answer ω → Option (Nat × ω)
  | (n, .served a) => some (n, a)
  | _ => none

/-! ## Runs -/

namespace Mailbox

variable (srv : Server σ ι τ ε ω)

/-- What the answers of the server are if it executes the commands one by one. -/
def results (s : σ) (atomics : List (Atomic ι τ ε)) : List (Nat × ω) :=
  (run srv.step s atomics).2.reduceOption

theorem results_append (s : σ) (atomics later : List (Atomic ι τ ε)) :
    results srv s (atomics ++ later) =
      results srv s atomics ++ results srv (run srv.step s atomics).1 later := by
  rw [results, run_append, List.reduceOption_append]
  rfl

variable (s : σ) (m : Mailbox σ ι) (requests : List (ω ⊕ ι)) (answers : List (Nat × Answer ω))
  (atomics : List (Atomic ι τ ε))

/-- The mailbox `m` after some requests and answers. The server has executed the commands that are
no longer in the queue, one by one, in the order in which they were sent. Every request has ended
but the one that is waited for, and an answer is that of its own request. If the client never gave
up, then all that the server answered has arrived. -/
structure Linearized : Prop where
  server : m.server = (run srv.step s atomics).1
  fifo : atomics.filterMap Atomic.command? ++ m.queue = numberedCommands requests
  asked : m.asked = requests.length
  ended : answers.map Prod.fst ++ m.waiting.toList = List.range m.asked
  pending : ∀ n ∈ m.waiting, ∃ c, m.queue.getLast? = some (n, c)
  served : (answers.filterMap Answer.served?).Sublist (results srv s atomics)
  atOnce : ∀ n a, (n, .atOnce a) ∈ answers → requests[n]? = some (.inl a)
  prompt : (∀ n, (n, .timedOut) ∉ answers) → m.queue.map Prod.fst = m.waiting.toList ∧
    answers.filterMap Answer.served? = results srv s atomics

theorem linearized_start : Linearized srv s (start s) [] [] [] where
  server := rfl
  fifo := rfl
  asked := rfl
  ended := rfl
  pending := fun n h => by cases h
  served := List.Sublist.slnil
  atOnce := fun n a h => by cases h
  prompt := fun _ => ⟨rfl, rfl⟩

variable {srv s m requests answers atomics}

/-- An answer that is not of the server does not count as one. -/
theorem served_concat {answer : Nat × Answer ω} (hother : Answer.served? answer = none) :
    (answers ++ [answer]).filterMap Answer.served? = answers.filterMap Answer.served? := by
  rw [List.filterMap_append, List.filterMap_cons_none hother]
  exact List.append_nil _

/-- A request that the client answers itself. -/
theorem Linearized.at_once (h : Linearized srv s m requests answers atomics)
    (hidle : m.waiting = none) (a : ω) :
    Linearized srv s { m with asked := m.asked + 1 } (requests ++ [.inl a])
      (answers ++ [(m.asked, .atOnce a)]) atomics where
  server := h.server
  fifo := by
    rw [numbered_commands_concat, h.fifo]
    exact (List.append_nil _).symm
  asked := by rw [List.length_append, ← h.asked, List.length_singleton]
  ended := by
    have hended := h.ended
    rw [hidle, Option.toList_none, List.append_nil] at hended
    rw [List.map_append, hended, hidle, List.range_succ]
    exact List.append_nil _
  pending := h.pending
  served := by
    rw [served_concat rfl]
    exact h.served
  atOnce := by
    intro n b hb
    rcases List.mem_append.mp hb with hold | hnew
    · have hget := h.atOnce n b hold
      rw [List.getElem?_append_left (List.getElem?_eq_some_iff.mp hget).1]
      exact hget
    · cases List.mem_singleton.mp hnew
      rw [h.asked, List.getElem?_concat_length]
  prompt := by
    intro hnone
    rw [served_concat rfl]
    exact h.prompt fun n hn => hnone n (List.mem_append_left _ hn)

/-- A command that is sent. -/
theorem Linearized.sent (h : Linearized srv s m requests answers atomics)
    (hidle : m.waiting = none) (c : ι) :
    Linearized srv s { m with
      queue := m.queue ++ [(m.asked, c)]
      waiting := some m.asked
      asked := m.asked + 1 } (requests ++ [.inr c]) answers atomics where
  server := h.server
  fifo := by
    rw [numbered_commands_concat, ← List.append_assoc, h.fifo, h.asked]
    rfl
  asked := by rw [List.length_append, ← h.asked, List.length_singleton]
  ended := by
    have hended := h.ended
    rw [hidle, Option.toList_none, List.append_nil] at hended
    rw [hended, List.range_succ]
    rfl
  pending := by
    intro n hn
    cases hn
    exact ⟨c, List.getLast?_concat⟩
  served := h.served
  atOnce := by
    intro n b hb
    have hget := h.atOnce n b hb
    rw [List.getElem?_append_left (List.getElem?_eq_some_iff.mp hget).1]
    exact hget
  prompt := by
    intro hnone
    obtain ⟨hqueue, hserved⟩ := h.prompt hnone
    refine ⟨?_, hserved⟩
    rw [List.map_append, hqueue, hidle]
    rfl

/-- The client gives up. -/
theorem Linearized.give_up (h : Linearized srv s m requests answers atomics) {n : Nat}
    (hwaiting : m.waiting = some n) :
    Linearized srv s { m with waiting := none } requests (answers ++ [(n, .timedOut)])
      atomics where
  server := h.server
  fifo := h.fifo
  asked := h.asked
  ended := by
    rw [List.map_append, ← h.ended, hwaiting]
    exact List.append_nil _
  pending := fun n hn => by cases hn
  served := by
    rw [served_concat rfl]
    exact h.served
  atOnce := by
    intro k b hb
    rcases List.mem_append.mp hb with hold | hnew
    · exact h.atOnce k b hold
    · cases List.mem_singleton.mp hnew
  prompt := fun hnone => absurd (List.mem_append_right _ (List.mem_singleton_self _)) (hnone n)

/-- The server does something else. -/
theorem Linearized.turn (h : Linearized srv s m requests answers atomics) (e : ε) :
    Linearized srv s { m with server := srv.turn m.server e } requests answers
      (atomics ++ [.turn e]) := by
  have hresults : results srv s (atomics ++ [.turn e]) = results srv s atomics := by
    rw [results_append]
    exact List.append_nil _
  constructor
  · rw [run_concat_fst, ← h.server]
    rfl
  · rw [List.filterMap_append, ← h.fifo, List.append_assoc]
    rfl
  · exact h.asked
  · exact h.ended
  · exact h.pending
  · rw [hresults]
    exact h.served
  · exact h.atOnce
  · rw [hresults]
    exact h.prompt

/-- What the server executes when it takes a command. -/
theorem Linearized.executes (h : Linearized srv s m requests answers atomics) {n : Nat} {c : ι}
    {queue : List (Nat × ι)} (hqueue : m.queue = (n, c) :: queue) (time : τ) :
    (srv.answer m.server time c).1 = (run srv.step s (atomics ++ [.command n time c])).1 ∧
      (atomics ++ [Atomic.command n time c]).filterMap Atomic.command? ++ queue =
        numberedCommands requests ∧
      results srv s (atomics ++ [.command n time c]) =
        results srv s atomics ++ [(n, (srv.answer m.server time c).2)] := by
  refine ⟨?_, ?_, ?_⟩
  · rw [run_concat_fst, ← h.server]
    rfl
  · rw [List.filterMap_append, ← h.fifo, hqueue, List.append_assoc]
    rfl
  · rw [results_append, ← h.server]
    rfl

/-- The server takes the command that is waited for. -/
theorem Linearized.serve (h : Linearized srv s m requests answers atomics) {n : Nat} {c : ι}
    {queue : List (Nat × ι)} (hqueue : m.queue = (n, c) :: queue) (hwaiting : m.waiting = some n)
    (time : τ) :
    let served := srv.answer m.server time c
    Linearized srv s { m with server := served.1, queue := queue, waiting := none } requests
      (answers ++ [(n, .served served.2)]) (atomics ++ [.command n time c]) := by
  intro served
  obtain ⟨hserver, hfifo, hresults⟩ := h.executes hqueue time
  have hanswers : (answers ++ [(n, Answer.served served.2)]).filterMap Answer.served? =
      answers.filterMap Answer.served? ++ [(n, served.2)] := List.filterMap_append
  refine ⟨hserver, hfifo, h.asked, ?_, (fun k hk => by cases hk), ?_, ?_, ?_⟩
  · rw [← h.ended, hwaiting, List.map_append]
    exact List.append_nil _
  · rw [hanswers, hresults]
    exact h.served.append (List.Sublist.refl _)
  · intro k b hb
    rcases List.mem_append.mp hb with hold | hnew
    · exact h.atOnce k b hold
    · cases List.mem_singleton.mp hnew
  · intro hnone
    obtain ⟨honly, hserved⟩ := h.prompt fun k hk => hnone k (List.mem_append_left _ hk)
    rw [hqueue, hwaiting] at honly
    refine ⟨(List.cons.inj honly).2, ?_⟩
    rw [hanswers, hresults, hserved]

/-- The server takes a command that was given up. -/
theorem Linearized.serve_late (h : Linearized srv s m requests answers atomics) {n : Nat} {c : ι}
    {queue : List (Nat × ι)} (hqueue : m.queue = (n, c) :: queue) (hwaiting : m.waiting ≠ some n)
    (time : τ) :
    Linearized srv s { m with server := (srv.answer m.server time c).1, queue := queue } requests
      answers (atomics ++ [.command n time c]) := by
  obtain ⟨hserver, hfifo, hresults⟩ := h.executes hqueue time
  refine ⟨hserver, hfifo, h.asked, h.ended, ?_, ?_, h.atOnce, ?_⟩
  · intro k hk
    obtain ⟨last, hlast⟩ := h.pending k hk
    rw [hqueue] at hlast
    cases queue with
    | nil =>
        cases hlast
        exact absurd hk hwaiting
    | cons next queue => exact ⟨last, by rwa [List.getLast?_cons_cons] at hlast⟩
  · rw [hresults]
    exact h.served.trans (List.sublist_append_left _ _)
  · intro hnone
    obtain ⟨honly, -⟩ := h.prompt hnone
    rw [hqueue] at honly
    cases hw : m.waiting with
    | none =>
        rw [hw] at honly
        cases honly
    | some k =>
        rw [hw] at honly
        obtain rfl := (List.cons.inj honly).1
        exact absurd hw hwaiting

/-- Any event. -/
theorem Linearized.step (h : Linearized srv s m requests answers atomics)
    (event : MailEvent ι τ ε ω) :
    let next := m.step srv event
    Linearized srv s next.1 (requests ++ next.2.request.toList) (answers ++ next.2.answer.toList)
      (atomics ++ next.2.atomic.toList) := by
  have hquiet : Linearized srv s m (requests ++ []) (answers ++ []) (atomics ++ []) := by
    simpa only [List.append_nil] using h
  cases event with
  | ask request =>
      simp only [Mailbox.step]
      split
      · exact hquiet
      · next hidle =>
          have hidle : m.waiting = none := by simpa using hidle
          cases request with
          | inl a => simpa using h.at_once hidle a
          | inr c => simpa using h.sent hidle c
  | serve time =>
      simp only [Mailbox.step]
      split
      · exact hquiet
      · next n c queue hqueue =>
          by_cases hwaiting : m.waiting = some n
          · simpa [hwaiting] using h.serve hqueue hwaiting time
          · simpa [hwaiting] using h.serve_late hqueue hwaiting time
  | giveUp =>
      simp only [Mailbox.step]
      split
      · exact hquiet
      · next n hwaiting => simpa using h.give_up hwaiting
  | turn e => simpa [Mailbox.step] using h.turn e

theorem append_filter_map_cons {α β : Type*} (f : α → Option β) (ys : List β) (x : α)
    (xs : List α) : ys ++ (x :: xs).filterMap f = ys ++ (f x).toList ++ xs.filterMap f := by
  cases hx : f x <;> simp [hx]

/-- Any run. -/
theorem Linearized.run (h : Linearized srv s m requests answers atomics)
    (events : List (MailEvent ι τ ε ω)) :
    let next := Lib.run (Mailbox.step srv) m events
    Linearized srv s next.1 (requests ++ MailOutput.requests next.2)
      (answers ++ MailOutput.answers next.2) (atomics ++ MailOutput.atomics next.2) := by
  induction events generalizing m requests answers atomics with
  | nil => simpa [MailOutput.requests, MailOutput.answers, MailOutput.atomics] using h
  | cons event events ih =>
      have hnext := ih (h.step event)
      simp only [Lib.run, MailOutput.requests, MailOutput.answers, MailOutput.atomics,
        append_filter_map_cons]
      exact hnext

/-- A server behind a queue is as good as one that executes each command in one step. -/
theorem linearized (srv : Server σ ι τ ε ω) (s : σ) (events : List (MailEvent ι τ ε ω)) :
    let r := Lib.run (Mailbox.step srv) (start s) events
    Linearized srv s r.1 (MailOutput.requests r.2) (MailOutput.answers r.2)
      (MailOutput.atomics r.2) :=
  (linearized_start srv s).run events

/-! ## Commands and their answers -/

/-- The commands that the server executes, each with its answer. -/
def executions (srv : Server σ ι τ ε ω) (s : σ) : List (Atomic ι τ ε) → List (ι × ω)
  | [] => []
  | .command _ time c :: atomics =>
      (c, (srv.answer s time c).2) :: executions srv (srv.answer s time c).1 atomics
  | .turn e :: atomics => executions srv (srv.turn s e) atomics

/-- The commands among the requests that the server has answered, each with its answer. -/
def exchanges (requests : List (ω ⊕ ι)) (answers : List (Nat × Answer ω)) : List (ι × ω) :=
  (answers.filterMap Answer.served?).filterMap fun served =>
    (requests[served.1]?.bind Sum.getRight?).map fun c => (c, served.2)

/-- A command has the number of its request. -/
theorem request_of_numbered {n : Nat} {c : ι} (h : (n, c) ∈ numberedCommands requests) :
    requests[n]?.bind Sum.getRight? = some c := by
  obtain ⟨⟨request, k⟩, hmem, hright⟩ := List.mem_filterMap.mp h
  obtain ⟨c', hc', heq⟩ := Option.map_eq_some_iff.mp hright
  obtain ⟨rfl, rfl⟩ := Prod.mk.inj heq
  rw [List.mem_zipIdx_iff_getElem?.mp hmem]
  exact hc'

/-- With the commands found by their numbers, the answers of the server are its executions. -/
theorem executions_eq (srv : Server σ ι τ ε ω) (s : σ) (atomics : List (Atomic ι τ ε))
    (find : Nat → Option ι)
    (hfind : ∀ n c, (n, c) ∈ atomics.filterMap Atomic.command? → find n = some c) :
    (results srv s atomics).filterMap (fun served => (find served.1).map fun c => (c, served.2)) =
      executions srv s atomics := by
  induction atomics generalizing s with
  | nil => rfl
  | cons atomic atomics ih =>
      have hcons := results_append srv s [atomic] atomics
      rw [List.singleton_append] at hcons
      rw [hcons, List.filterMap_append]
      cases atomic with
      | turn e => exact ih _ fun n c hc => hfind n c hc
      | command n time c =>
          have hc : find n = some c := hfind n c List.mem_cons_self
          rw [ih _ fun k c' hc' => hfind k c' (List.mem_cons_of_mem _ hc')]
          have hone : results srv s [.command n time c] = [(n, (srv.answer s time c).2)] := rfl
          rw [hone, List.filterMap_cons, hc]
          rfl

/-- If the client never gave up, then the answers that it got are those of the executions. -/
theorem Linearized.exchanges_eq (h : Linearized srv s m requests answers atomics)
    (hnone : ∀ n, (n, .timedOut) ∉ answers) :
    exchanges requests answers = executions srv s atomics := by
  rw [exchanges, (h.prompt hnone).2]
  refine executions_eq srv s atomics (fun n => requests[n]?.bind Sum.getRight?) fun n c hc => ?_
  have hsent : (n, c) ∈ numberedCommands requests := by
    rw [← h.fifo]
    exact List.mem_append_left _ hc
  exact request_of_numbered hsent

end Mailbox

end H2Tap.Lib
