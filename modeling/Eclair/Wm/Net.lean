import Mathlib.Logic.Function.Basic
import Eclair.Lib.System
import Eclair.Wm.Calls

/-!
# Eclair.Wm.Net

The window manager and its clients on one channel (`send_message` of
`lib/wm.c`, `server_update` and `send_response` of `bin/wm/server.c`, the
hooks of `kernel/vfs/chnlfs.c`).

Every call of the kernel that acts on the channel is a step, for
`task_acquire` lets one task at a time use it; `ECIO_CHNL_WAITREAD` is three,
as it gives the channel back while the task sleeps.  Between its steps a
party can be overtaken by any others.

`wmNet_linear` says that the parties behave as if every call was made at
once: there is an order of the calls in which the server has served them, one
after the other, and from which every client has its results.
-/

namespace Eclair

/-! ## the parties -/

/-- Where a client is in `send_message`. -/
inductive ClientPhase where
  | idle
  /-- `ec_write`, until it does not return `EAGAIN` -/
  | writing (c : WmCall)
  /-- at the test of `ECIO_CHNL_WAITREAD` -/
  | written (c : WmCall)
  /-- the test has failed, the task does not sleep yet -/
  | drowsy (c : WmCall)
  | asleep (c : WmCall)
  | woken (c : WmCall)
  /-- `ECIO_CHNL_WAITREAD` has returned -/
  | reading (c : WmCall)

namespace ClientPhase

/-- The call that is being made. -/
def call : ClientPhase → Option WmCall
  | .idle => none
  | .writing c | .written c | .drowsy c | .asleep c | .woken c | .reading c => some c

/-- A sleeping task is woken, another one is left alone. -/
def wake : ClientPhase → ClientPhase
  | .asleep c => .woken c
  | p => p

/-- The request has been written, and no wake-up has come. -/
def Waits (c : WmCall) (p : ClientPhase) : Prop := p = .written c ∨ p = .drowsy c ∨ p = .asleep c

/-- The request has been written. -/
def Sent (c : WmCall) (p : ClientPhase) : Prop := p.Waits c ∨ p = .woken c ∨ p = .reading c

/-- No request is under way. -/
def Outside (p : ClientPhase) : Prop := p = .idle ∨ ∃ c, p = .writing c

end ClientPhase

/-- Where the server is in `server_update`. -/
inductive ServerPhase where
  /-- between messages, up to the test of `ECIO_CHNL_WAITREAD` -/
  | polling
  /-- asleep, for as long as the timeout or until it is woken -/
  | napping
  /-- `ECIO_CHNL_WAITREAD` has returned 0 -/
  | ready
  | sourced (pid : Int)
  | locked (pid : Int)
  | received (pid : Int) (msg : Bytes)
  /-- the message has been processed, with this response -/
  | answering (pid : Int) (r : WmResponse)
  /-- after `ECIO_CHNL_SETDEST` -/
  | addressed (pid : Int) (r : WmResponse)
  /-- the response has been written -/
  | answered
  deriving DecidableEq

/-- The server holds the channel for writing. -/
def ServerPhase.locks : ServerPhase → Bool
  | .locked _ | .received .. | .answering .. | .addressed .. | .answered => true
  | _ => false

/-- The channel, the server and its clients. -/
structure WmNet where
  chnl : ChnlInfo
  wm : Wm
  server : ServerPhase
  client : Nat → ClientPhase
  rspbuf : Nat → Bytes
  /-- what the calls of a client have returned, in their order -/
  returned : Nat → List (WmCall × WmResult)

/-- What happens. -/
inductive WmNetEvent where
  | start (pid : Nat) (c : WmCall)
  | write (pid : Nat)
  | check (pid : Nat)
  | sleep (pid : Nat)
  | resume (pid : Nat)
  | read (pid : Nat)
  | server
  | input (e : WmEvent)

namespace WmNet

/-- A client moves on. -/
def moveTo (pid : Nat) (p : ClientPhase) (s : WmNet) : WmNet :=
  { s with client := Function.update s.client pid p }

/-- `write_fs`, which wakes the destination. -/
def write (tid : Int) (m : Bytes) (s : WmNet) : WmNet :=
  if chnlAgain tid s.chnl then s
  else
    let c := (chnlWrite tid m s.chnl).2
    { s with
      chnl := c
      client := fun pid => if (pid : Int) = c.dest then (s.client pid).wake else s.client pid }

/-- `ec_read` into `rspbuf`, and what the caller makes of it. -/
def finish (pid : Nat) (c : WmCall) (s : WmNet) : WmNet :=
  let r := chnlRead pid ECIO_CHNL_BUFSZ s.chnl
  let buf := r.1 ++ (s.rspbuf pid).drop r.1.length
  { s with
    chnl := r.2
    client := Function.update s.client pid .idle
    rspbuf := Function.update s.rspbuf pid buf
    returned := Function.update s.returned pid (s.returned pid ++ [(c, c.result buf)]) }

end WmNet

/-- The next step of the server; there is none after a message that it does
not survive. -/
def wmServerNext (fb : Display) (S : Nat) (s : WmNet) : Option WmNet :=
  match s.server with
  | .polling => some { s with server := if s.chnl.dest = S then .ready else .napping }
  | .napping => some { s with server := if s.chnl.dest = S then .ready else .polling }
  | .ready => some { s with server := .sourced s.chnl.source }
  | .sourced pid => some { s with server := .locked pid, chnl := (chnlLockw S s.chnl).2 }
  | .locked pid =>
      let r := chnlRead S ECIO_CHNL_BUFSZ s.chnl
      some { s with server := .received pid r.1, chnl := r.2 }
  | .received pid msg =>
      match processMessage fb msg s.wm with
      | .ok (some (wm, r)) => some { s with server := .answering pid r, wm := wm }
      | _ => none
  | .answering pid r => some { s with server := .addressed pid r, chnl := (chnlSetDest S pid s.chnl).2 }
  | .addressed _ r => some { s.write S r.bytes with server := .answered }
  | .answered => some { s with server := .polling, chnl := (chnlUnlockw S s.chnl).2 }

/-- One step of a client with the call it is making, of the server, or an
input event for the server. -/
def wmNetNext (fb : Display) (S : Nat) (s : WmNet) : WmNetEvent → Option WmNet
  | .start pid c => match s.client pid with
    | .idle => some (s.moveTo pid (.writing c))
    | _ => none
  | .write pid => match s.client pid with
    | .writing c =>
        if chnlAgain pid s.chnl then some s else some ((s.write pid c.request).moveTo pid (.written c))
    | _ => none
  | .check pid => match s.client pid with
    | .written c => some (s.moveTo pid (if s.chnl.dest = pid then .reading c else .drowsy c))
    | _ => none
  | .sleep pid => match s.client pid with
    | .drowsy c => some (s.moveTo pid (.asleep c))
    | _ => none
  | .resume pid => match s.client pid with
    | .woken c => some (s.moveTo pid (.reading c))
    | _ => none
  | .read pid => match s.client pid with
    | .reading c => some (s.finish pid c)
    | _ => none
  | .server => wmServerNext fb S s
  | .input e => match s.server with
    | .polling => (windowProcessEvent s.wm e).map fun wm => { s with wm := wm }
    | _ => none

/-- The server has opened the channel, and no client has called yet. -/
structure WmNet.Start (S : Nat) (s : WmNet) : Prop where
  chnl : ∃ c, s.chnl = chnlOpen 0 S c
  wm : s.wm = Wm.init
  server : s.server = .polling
  client : ∀ pid, s.client pid = .idle
  returned : ∀ pid, s.returned pid = []

/-- The clients and the server `S`. -/
def wmNet (fb : Display) (S : Nat) : System WmNet WmNetEvent := System.ofNext (WmNet.Start S) (wmNetNext fb S)

/-- The clients are other tasks than the server and keep to the library, and
none of them tests for its reply between the server's `ECIO_CHNL_SETDEST` and
its write: it would find itself addressed, read nothing and free the channel
under the server. -/
def Undisturbed (S : Nat) (s : WmNet) : WmNetEvent → Prop
  | .start pid c => pid ≠ S ∧ c.Valid
  | .check _ => ∀ pid r, s.server ≠ .addressed pid r
  | _ => True

/-! ## the order of the calls -/

/-- What the server has done: calls that it served, with its answers, and
events. -/
inductive WmItem where
  | call (pid : Nat) (c : WmCall) (r : WmResponse)
  | event (e : WmEvent)

/-- The server comes to this state by serving these calls and events alone,
one after the other. -/
inductive Serves (fb : Display) : List WmItem → Wm → Prop
  | start : Serves fb [] Wm.init
  | call {hist s t pid c r} (h : Serves fb hist s) (hc : c.serve fb s = .ok (some (t, r))) :
      Serves fb (hist ++ [.call pid c r]) t
  | event {hist s t e} (h : Serves fb hist s) (he : windowProcessEvent s e = some t) :
      Serves fb (hist ++ [.event e]) t

/-- The calls of one client and what they return. -/
def callsOf (pid : Nat) (hist : List WmItem) : List (WmCall × WmResult) :=
  hist.filterMap fun
    | .call p c r => if p = pid then some (c, c.returns r) else none
    | .event _ => none

/-! ## the invariant -/

/-- The one call that has left its client, and how far it has come. -/
inductive Flight where
  | none
  | request (pid : Nat) (c : WmCall)
  | handling (pid : Nat) (c : WmCall)
  | answering (pid : Nat) (c : WmCall) (r : WmResponse)
  | addressed (pid : Nat) (c : WmCall) (r : WmResponse)
  | reply (pid : Nat) (c : WmCall) (r : WmResponse)

namespace Flight

/-- The client whose call it is. -/
def pid : Flight → Option Nat
  | .none => Option.none
  | .request p _ | .handling p _ | .answering p _ _ | .addressed p _ _ | .reply p _ _ => some p

/-- What has been served for a client and not returned yet. -/
def pending (p : Nat) : Flight → List (WmCall × WmResult)
  | .none | .request _ _ | .handling _ _ => []
  | .answering q c r | .addressed q c r | .reply q c r => if q = p then [(c, c.returns r)] else []

end Flight

/-- The channel holds a message. -/
structure ChnlInfo.Carries (c : ChnlInfo) (source dest : Int) (m : Bytes) : Prop where
  source : c.source = source
  dest : c.dest = dest
  size : c.size = m.length
  bytes : c.bytes m.length = m

/-- Nobody has written to the channel, or been addressed. -/
structure ChnlInfo.Empty (c : ChnlInfo) : Prop where
  source : c.source = -1
  dest : c.dest = -1

/-- The channel, the server and the client for each stage of a call. -/
def Flight.Holds (S : Nat) (s : WmNet) : Flight → Prop
  | .none => s.chnl.Empty ∧ (s.server = .polling ∨ s.server = .napping ∨ s.server = .answered)
  | .request pid c => s.chnl.Carries pid S c.request ∧ (s.client pid).Waits c ∧
      (s.server = .polling ∨ s.server = .napping ∨ s.server = .ready ∨ s.server = .sourced pid ∨
        s.server = .locked pid)
  | .handling pid c => s.chnl.Empty ∧ (s.client pid).Waits c ∧ s.server = .received pid c.request
  | .answering pid c r => s.chnl.Empty ∧ (s.client pid).Waits c ∧ s.server = .answering pid r ∧ c.Gets r
  | .addressed pid c r => s.chnl.source = S ∧ s.chnl.dest = pid ∧ (s.client pid).Waits c ∧
      s.server = .addressed pid r ∧ c.Gets r
  | .reply pid c r => s.chnl.Carries S pid r.bytes ∧ (s.client pid).Sent c ∧ c.Gets r ∧
      (s.server = .polling ∨ s.server = .napping ∨ s.server = .answered)

/-- **The invariant**: at most one call has left its client. -/
structure NetInv (fb : Display) (S : Nat) (s : WmNet) (hist : List WmItem) (f : Flight) : Prop where
  serves : Serves fb hist s.wm
  owner : s.chnl.owner = S
  lockw : s.chnl.lockw = if s.server.locks then (S : Int) else -1
  holds : f.Holds S s
  others : ∀ pid, f.pid ≠ some pid → (s.client pid).Outside
  away : ∀ pid, f.pid = some pid → pid ≠ S
  valid : ∀ pid c, (s.client pid).call = some c → pid ≠ S ∧ c.Valid
  calls : ∀ pid, callsOf pid hist = s.returned pid ++ f.pending pid

variable {fb : Display} {S pid : Nat} {s t : WmNet} {hist : List WmItem} {f : Flight} {c : WmCall}
  {r : WmResponse} {chnl : ChnlInfo} {tid source dest : Int} {m : Bytes} {p : ClientPhase}

/-! ## the channel -/

theorem chnlAgain_of_source (h : chnl.source = source) (h0 : 0 ≤ source) (hne : source ≠ tid) :
    chnlAgain tid chnl = true := by
  simp [chnlAgain, h, h0, hne]

theorem chnlAgain_of_lockw (h : chnl.lockw = source) (h0 : 0 ≤ source) (hne : source ≠ tid) :
    chnlAgain tid chnl = true := by
  simp [chnlAgain, h, h0, hne]

theorem chnlAgain_of_free (h : chnl.source = -1 ∨ chnl.source = tid)
    (hl : chnl.lockw = -1 ∨ chnl.lockw = tid) : chnlAgain tid chnl = false := by
  rcases h with h | h <;> rcases hl with hl | hl <;> simp [chnlAgain, h, hl]

/-- A message that is written whole. -/
theorem carries_chnlWrite (hok : chnlAgain tid chnl = false) (hm : m.length ≤ ECIO_CHNL_BUFSZ)
    (hdest : (if chnl.dest < 0 then chnl.owner else chnl.dest) = dest) :
    (chnlWrite tid m chnl).2.Carries tid dest m := by
  have hfit : chnlFit m = m := List.take_of_length_le hm
  rw [chnlWrite_of_ok hok]
  refine ⟨rfl, hdest, congrArg List.length hfit, ?_⟩
  have hbytes := bytes_chnlCopy (c := chnlSign tid (chnlAddress chnl)) (Nat.le_refl (chnlFit m).length)
  rwa [hfit, List.take_length] at hbytes

/-- A message that is read whole. -/
theorem ChnlInfo.Carries.read (h : chnl.Carries source dest m) (hm : m.length ≤ ECIO_CHNL_BUFSZ) :
    (chnlRead dest ECIO_CHNL_BUFSZ chnl).1 = m ∧ (chnlRead dest ECIO_CHNL_BUFSZ chnl).2.Empty ∧
      (chnlRead dest ECIO_CHNL_BUFSZ chnl).2.owner = chnl.owner ∧
      (chnlRead dest ECIO_CHNL_BUFSZ chnl).2.lockw = chnl.lockw := by
  have hsize := h.size
  rw [chnlRead_of_eq h.dest.symm, if_pos (by omega), hsize, Nat.min_eq_right hm]
  exact ⟨h.bytes, ⟨rfl, rfl⟩, rfl, rfl⟩

theorem length_response (h : c.Gets r) : r.bytes.length ≤ ECIO_CHNL_BUFSZ := by
  have hlen : r.bytes.length = 4 * r.words.length := Words.length_all
  rw [hlen]
  cases r with
  | result v => exact (show 4 * 3 ≤ 65536 by decide)
  | screenInfo width height => exact (show 4 * 5 ≤ 65536 by decide)
  | attributes a => exact (show 4 * 10 ≤ 65536 by decide)
  | events es =>
      have hes : es.length ≤ MAX_RESPONSE_EVENTS := by
        cases c with
        | getQueuedWindowEvents id =>
            obtain hr | ⟨_, hr, hle⟩ := h
            · cases hr
            · cases hr
              exact hle
        | getWindowAttributes id mask =>
            obtain hr | ⟨_, hr⟩ := h <;> cases hr
        | getScreenInfo =>
            obtain ⟨_, _, hr⟩ := h
            cases hr
        | _ =>
            obtain ⟨_, hr⟩ := h
            cases hr
      have hwords : ∀ es : List WmEvent, (es.flatMap WmEvent.words).length = 5 * es.length := by
        intro es
        induction es with
        | nil => rfl
        | cons e es ih =>
            have he : e.words.length = 5 := by cases e <;> rfl
            rw [List.flatMap_cons, List.length_append, he, ih, List.length_cons]
            omega
      simp only [WmResponse.words, List.length_append, List.length_cons, List.length_nil, hwords,
        MAX_RESPONSE_EVENTS, ECIO_CHNL_BUFSZ] at hes ⊢
      omega

/-! ## a client moves -/

@[simp] theorem moveTo_chnl : (s.moveTo pid p).chnl = s.chnl := rfl
@[simp] theorem moveTo_wm : (s.moveTo pid p).wm = s.wm := rfl
@[simp] theorem moveTo_server : (s.moveTo pid p).server = s.server := rfl
@[simp] theorem moveTo_returned : (s.moveTo pid p).returned = s.returned := rfl
@[simp] theorem moveTo_client_self : (s.moveTo pid p).client pid = p := Function.update_self ..

theorem moveTo_client_of_ne {q : Nat} (h : q ≠ pid) : (s.moveTo pid p).client q = s.client q :=
  Function.update_of_ne h _ _

/-- The stage of a call does not depend on the other clients. -/
theorem Flight.Holds.congr (h : f.Holds S s) (hchnl : t.chnl = s.chnl) (hserver : t.server = s.server)
    (hclient : ∀ q, f.pid = some q → t.client q = s.client q) : f.Holds S t := by
  cases f with
  | none => simpa only [Flight.Holds, hchnl, hserver] using h
  | request q c => simpa only [Flight.Holds, hchnl, hserver, hclient q rfl] using h
  | handling q c => simpa only [Flight.Holds, hchnl, hserver, hclient q rfl] using h
  | answering q c r => simpa only [Flight.Holds, hchnl, hserver, hclient q rfl] using h
  | addressed q c r => simpa only [Flight.Holds, hchnl, hserver, hclient q rfl] using h
  | reply q c r => simpa only [Flight.Holds, hchnl, hserver, hclient q rfl] using h

/-- The call that is under way is that of a client that has sent it. -/
theorem Flight.Holds.sent {q : Nat} (h : f.Holds S s) (hq : f.pid = some q) :
    ∃ c, (s.client q).Sent c := by
  cases f with
  | none => cases hq
  | request q c =>
      cases hq
      exact ⟨c, .inl h.2.1⟩
  | handling q c =>
      cases hq
      exact ⟨c, .inl h.2.1⟩
  | answering q c r =>
      cases hq
      exact ⟨c, .inl h.2.1⟩
  | addressed q c r =>
      cases hq
      exact ⟨c, .inl h.2.2.1⟩
  | reply q c r =>
      cases hq
      exact ⟨c, h.2.1⟩

theorem ClientPhase.Sent.not_outside (h : p.Sent c) : ¬ p.Outside := by
  rintro (ho | ⟨d, ho⟩) <;> rcases h with (h | h | h) | h | h <;> rw [ho] at h <;> cases h

/-- Who has not sent a request is not the one whose call is under way. -/
theorem NetInv.not_flying (h : NetInv fb S s hist f) (hp : (s.client pid).Outside) :
    f.pid ≠ some pid := by
  intro hpid
  obtain ⟨c, hc⟩ := h.holds.sent hpid
  exact hc.not_outside hp

/-- Who has sent a request is. -/
theorem NetInv.flying (h : NetInv fb S s hist f) (hp : (s.client pid).Sent c) : f.pid = some pid := by
  by_contra hne
  exact hp.not_outside (h.others pid hne)

/-- A client that is outside stays there. -/
theorem NetInv.outside (h : NetInv fb S s hist f) (hp : (s.client pid).Outside) (hq : p.Outside)
    (hvalid : ∀ c, p.call = some c → pid ≠ S ∧ c.Valid) : NetInv fb S (s.moveTo pid p) hist f where
  serves := h.serves
  owner := h.owner
  lockw := h.lockw
  holds := by
    refine h.holds.congr rfl rfl fun q hfly => moveTo_client_of_ne ?_
    rintro rfl
    exact h.not_flying hp hfly
  others q hne := by
    by_cases hpid : q = pid
    · subst hpid
      rwa [moveTo_client_self]
    · rw [moveTo_client_of_ne hpid]
      exact h.others q hne
  away := h.away
  valid q d hd := by
    by_cases hpid : q = pid
    · subst hpid
      rw [moveTo_client_self] at hd
      exact hvalid d hd
    · rw [moveTo_client_of_ne hpid] at hd
      exact h.valid q d hd
  calls := h.calls

/-- The client whose call is under way goes on with it. -/
theorem NetInv.goes (h : NetInv fb S s hist f) (hcall : p.call = (s.client pid).call)
    (hfly : f.pid = some pid) (hholds : f.Holds S (s.moveTo pid p)) :
    NetInv fb S (s.moveTo pid p) hist f where
  serves := h.serves
  owner := h.owner
  lockw := h.lockw
  holds := hholds
  others q hne := by
    have hpid : q ≠ pid := by
      rintro rfl
      exact hne hfly
    rw [moveTo_client_of_ne hpid]
    exact h.others q hne
  away := h.away
  valid q d hd := by
    by_cases hpid : q = pid
    · subst hpid
      rw [moveTo_client_self, hcall] at hd
      exact h.valid q d hd
    · rw [moveTo_client_of_ne hpid] at hd
      exact h.valid q d hd
  calls := h.calls

/-! ## the steps of a client -/

theorem ClientPhase.Sent.call_eq (h : p.Sent c) : p.call = some c := by
  rcases h with (h | h | h) | h | h <;> rw [h] <;> rfl

/-- A client that has sent its request waits on. -/
theorem NetInv.waits (h : NetInv fb S s hist f) (hc : (s.client pid).Sent c) (hp : p.Waits c) :
    NetInv fb S (s.moveTo pid p) hist f := by
  have hfly := h.flying hc
  have hsent : p.Sent c := .inl hp
  have hsame : ∀ {d}, (s.client pid).Sent d → d = c := fun hd =>
    Option.some.inj (hd.call_eq.symm.trans hc.call_eq)
  refine h.goes (hsent.call_eq.trans hc.call_eq.symm) hfly ?_
  have hholds := h.holds
  cases f with
  | none => cases hfly
  | request q d =>
      obtain rfl := Option.some.inj hfly
      obtain rfl := hsame (.inl hholds.2.1)
      exact ⟨hholds.1, by rwa [moveTo_client_self], hholds.2.2⟩
  | handling q d =>
      obtain rfl := Option.some.inj hfly
      obtain rfl := hsame (.inl hholds.2.1)
      exact ⟨hholds.1, by rwa [moveTo_client_self], hholds.2.2⟩
  | answering q d r =>
      obtain rfl := Option.some.inj hfly
      obtain rfl := hsame (.inl hholds.2.1)
      exact ⟨hholds.1, by rwa [moveTo_client_self], hholds.2.2⟩
  | addressed q d r =>
      obtain rfl := Option.some.inj hfly
      obtain rfl := hsame (.inl hholds.2.2.1)
      exact ⟨hholds.1, hholds.2.1, by rwa [moveTo_client_self], hholds.2.2.2⟩
  | reply q d r =>
      obtain rfl := Option.some.inj hfly
      obtain rfl := hsame hholds.2.1
      exact ⟨hholds.1, by rwa [moveTo_client_self], hholds.2.2⟩

/-- Once its reply is there it goes on. -/
theorem NetInv.wakes {q : Nat} {d : WmCall} (h : NetInv fb S s hist (.reply q d r))
    (hc : (s.client pid).Sent c) (hp : p.Sent c) :
    NetInv fb S (s.moveTo pid p) hist (.reply q d r) := by
  obtain rfl := Option.some.inj (h.flying hc)
  obtain rfl : d = c := Option.some.inj (h.holds.2.1.call_eq.symm.trans hc.call_eq)
  exact h.goes (hp.call_eq.trans hc.call_eq.symm) rfl
    ⟨h.holds.1, by rwa [moveTo_client_self], h.holds.2.2⟩

theorem NetInv.start (h : NetInv fb S s hist f) (hp : s.client pid = .idle) (hs : pid ≠ S)
    (hc : c.Valid) : NetInv fb S (s.moveTo pid (.writing c)) hist f := by
  refine h.outside (.inl hp) (.inr ⟨c, rfl⟩) fun d hd => ?_
  obtain rfl := Option.some.inj hd
  exact ⟨hs, hc⟩

/-- **The test** of `ECIO_CHNL_WAITREAD` finds the reply or lets the client go to sleep. -/
theorem NetInv.check (h : NetInv fb S s hist f) (hp : s.client pid = .written c)
    (hok : ∀ pid r, s.server ≠ .addressed pid r) :
    NetInv fb S (s.moveTo pid (if s.chnl.dest = pid then .reading c else .drowsy c)) hist f := by
  have hsent : (s.client pid).Sent c := .inl (.inl hp)
  have hfly := h.flying hsent
  have hholds := h.holds
  have haway := h.away pid hfly
  split
  · next hdest =>
      cases f with
      | none => cases hfly
      | request q d =>
          have hd := hholds.1.dest
          rw [hdest] at hd
          exact absurd (Int.ofNat_inj.mp hd) haway
      | handling q d =>
          have hd := hholds.1.dest
          rw [hdest] at hd
          omega
      | answering q d r =>
          have hd := hholds.1.dest
          rw [hdest] at hd
          omega
      | addressed q d r => exact absurd hholds.2.2.2.1 (hok q r)
      | reply q d r => exact h.wakes hsent (.inr (.inr rfl))
  · exact h.waits hsent (.inr (.inl rfl))

theorem NetInv.resume (h : NetInv fb S s hist f) (hp : s.client pid = .woken c) :
    NetInv fb S (s.moveTo pid (.reading c)) hist f := by
  have hsent : (s.client pid).Sent c := .inr (.inl hp)
  have hfly := h.flying hsent
  have hnot : ∀ d, ¬ (s.client pid).Waits d := by
    rintro d (hd | hd | hd) <;> rw [hp] at hd <;> cases hd
  have hholds := h.holds
  cases f with
  | none => cases hfly
  | request q d =>
      obtain rfl := Option.some.inj hfly
      exact absurd hholds.2.1 (hnot d)
  | handling q d =>
      obtain rfl := Option.some.inj hfly
      exact absurd hholds.2.1 (hnot d)
  | answering q d r =>
      obtain rfl := Option.some.inj hfly
      exact absurd hholds.2.1 (hnot d)
  | addressed q d r =>
      obtain rfl := Option.some.inj hfly
      exact absurd hholds.2.2.1 (hnot d)
  | reply q d r => exact h.wakes hsent (.inr (.inr rfl))

theorem ClientPhase.Outside.wake (h : p.Outside) : p.wake = p := by
  rcases h with h | ⟨c, h⟩ <;> rw [h] <;> rfl

@[simp] theorem chnlWrite_owner : (chnlWrite tid m chnl).2.owner = chnl.owner := by
  unfold chnlWrite
  split <;> rfl

@[simp] theorem chnlWrite_lockw : (chnlWrite tid m chnl).2.lockw = chnl.lockw := by
  unfold chnlWrite
  split <;> rfl

/-- The server's lock keeps the clients from writing. -/
theorem NetInv.again_of_locks (h : NetInv fb S s hist f) (hl : s.server.locks = true) (hs : pid ≠ S) :
    chnlAgain pid s.chnl = true := by
  have hlockw := h.lockw
  rw [hl, if_pos rfl] at hlockw
  exact chnlAgain_of_lockw hlockw (Int.natCast_nonneg S) fun he => hs (Int.ofNat_inj.mp he).symm

/-- **A client writes** only to a channel that nobody uses. -/
theorem NetInv.free (h : NetInv fb S s hist f) (hp : s.client pid = .writing c)
    (hagain : chnlAgain pid s.chnl = false) : f = .none ∧ s.server.locks = false := by
  have hs : pid ≠ S := (h.valid pid c (by rw [hp]; rfl)).1
  have hlocks : s.server.locks = false := by
    cases hl : s.server.locks with
    | false => rfl
    | true =>
        rw [h.again_of_locks hl hs] at hagain
        contradiction
  have hsource : ∀ q : Nat, q ≠ pid → s.chnl.source ≠ q := by
    intro q hq hsrc
    rw [chnlAgain_of_source hsrc (Int.natCast_nonneg q) fun he => hq (Int.ofNat_inj.mp he)] at hagain
    contradiction
  have hholds := h.holds
  refine ⟨?_, hlocks⟩
  cases f with
  | none => rfl
  | request q d =>
      have hne : q ≠ pid := by
        rintro rfl
        exact h.not_flying (.inr ⟨c, hp⟩) rfl
      exact absurd hholds.1.source (hsource q hne)
  | handling q d =>
      rw [hholds.2.2] at hlocks
      cases hlocks
  | answering q d r =>
      rw [hholds.2.2.1] at hlocks
      cases hlocks
  | addressed q d r =>
      rw [hholds.2.2.2.1] at hlocks
      cases hlocks
  | reply q d r => exact absurd hholds.1.source (hsource S hs.symm)

theorem NetInv.write (h : NetInv fb S s hist f) (hp : s.client pid = .writing c)
    (hagain : chnlAgain pid s.chnl = false) :
    NetInv fb S ((s.write pid c.request).moveTo pid (.written c)) hist (.request pid c) := by
  obtain ⟨rfl, hlocks⟩ := h.free hp hagain
  obtain ⟨hs, hvalid⟩ := h.valid pid c (by rw [hp]; rfl)
  have hempty := h.holds.1
  have hlockw := h.lockw
  have houtside : ∀ q, (s.client q).Outside := fun q => h.others q fun hpid => by cases hpid
  have hclient : (s.write pid c.request).client = s.client := by
    funext q
    rw [WmNet.write, if_neg (by rw [hagain]; exact Bool.false_ne_true)]
    dsimp only
    split
    · exact (houtside q).wake
    · rfl
  have hchnl : (s.write pid c.request).chnl = (chnlWrite pid c.request s.chnl).2 := by
    rw [WmNet.write, if_neg (by rw [hagain]; exact Bool.false_ne_true)]
  have hrest : (s.write pid c.request).server = s.server ∧ (s.write pid c.request).wm = s.wm ∧
      (s.write pid c.request).returned = s.returned := by
    rw [WmNet.write, if_neg (by rw [hagain]; exact Bool.false_ne_true)]
    exact ⟨rfl, rfl, rfl⟩
  obtain ⟨hserver, hwm, hreturned⟩ := hrest
  have hdest : (if s.chnl.dest < 0 then s.chnl.owner else s.chnl.dest) = S := by
    rw [hempty.dest, if_pos (by decide), h.owner]
  have hcarries := carries_chnlWrite hagain (by rw [length_request]; exact hvalid.fits) hdest
  refine ⟨?_, ?_, ?_, ⟨?_, ?_, ?_⟩, fun q hne => ?_, ?_, fun q d hd => ?_, fun q => ?_⟩
  · rw [moveTo_wm, hwm]
    exact h.serves
  · rw [moveTo_chnl, hchnl, chnlWrite_owner]
    exact h.owner
  · rw [moveTo_chnl, hchnl, chnlWrite_lockw, moveTo_server, hserver]
    exact hlockw
  · rwa [moveTo_chnl, hchnl]
  · rw [moveTo_client_self]
    exact .inl rfl
  · rw [moveTo_server, hserver]
    rcases h.holds.2 with hserver | hserver | hserver
    · exact .inl hserver
    · exact .inr (.inl hserver)
    · rw [hserver] at hlocks
      cases hlocks
  · have hq : q ≠ pid := by
      rintro rfl
      exact hne rfl
    rw [moveTo_client_of_ne hq, hclient]
    exact houtside q
  · intro q hq
    obtain rfl := Option.some.inj hq
    exact hs
  · by_cases hq : q = pid
    · subst hq
      rw [moveTo_client_self] at hd
      obtain rfl := Option.some.inj hd
      exact ⟨hs, hvalid⟩
    · rw [moveTo_client_of_ne hq, hclient] at hd
      exact h.valid q d hd
  · rw [moveTo_returned, hreturned]
    exact h.calls q

/-- **A client reads** the answer to its own call, and frees the channel. -/
theorem NetInv.read (h : NetInv fb S s hist f) (hp : s.client pid = .reading c) :
    NetInv fb S (s.finish pid c) hist .none := by
  have hsent : (s.client pid).Sent c := .inr (.inr hp)
  have hfly := h.flying hsent
  have hnot : ∀ d, ¬ (s.client pid).Waits d := by
    rintro d (hd | hd | hd) <;> rw [hp] at hd <;> cases hd
  have hholds := h.holds
  have hcalls := h.calls
  cases f with
  | none => cases hfly
  | request q d =>
      obtain rfl := Option.some.inj hfly
      exact absurd hholds.2.1 (hnot d)
  | handling q d =>
      obtain rfl := Option.some.inj hfly
      exact absurd hholds.2.1 (hnot d)
  | answering q d r =>
      obtain rfl := Option.some.inj hfly
      exact absurd hholds.2.1 (hnot d)
  | addressed q d r =>
      obtain rfl := Option.some.inj hfly
      exact absurd hholds.2.2.1 (hnot d)
  | reply q d r =>
      obtain rfl := Option.some.inj hfly
      obtain rfl : d = c := Option.some.inj (hholds.2.1.call_eq.symm.trans hsent.call_eq)
      obtain ⟨hcarries, -, hgets, hserver⟩ := hholds
      obtain ⟨hmsg, hempty, howner, hlockw⟩ := hcarries.read (length_response hgets)
      have hresult : ∀ junk, d.result (r.bytes ++ junk) = d.returns r := fun _ => result_reply hgets
      refine ⟨h.serves, howner.trans h.owner, hlockw.trans h.lockw, ⟨hempty, hserver⟩,
        fun p _ => ?_, fun p hpid => ?_, fun p e he => ?_, fun p => ?_⟩
      · by_cases hpq : p = q
        · subst hpq
          exact .inl (Function.update_self ..)
        · have hsame : (s.finish q d).client p = s.client p := Function.update_of_ne hpq _ _
          rw [hsame]
          refine h.others p fun hpid => hpq (Option.some.inj hpid).symm
      · cases hpid
      · by_cases hpq : p = q
        · subst hpq
          have hidle : (s.finish p d).client p = .idle := Function.update_self ..
          rw [hidle] at he
          cases he
        · have hsame : (s.finish q d).client p = s.client p := Function.update_of_ne hpq _ _
          rw [hsame] at he
          exact h.valid p e he
      · rw [hcalls p, Flight.pending, Flight.pending, List.append_nil]
        by_cases hpq : p = q
        · subst hpq
          have hnew : (s.finish p d).returned p = s.returned p ++ [(d, d.returns r)] := by
            refine (Function.update_self ..).trans ?_
            rw [hmsg, hresult]
          rw [hnew, if_pos rfl]
        · have hsame : (s.finish q d).returned p = s.returned p := Function.update_of_ne hpq _ _
          rw [hsame, if_neg fun he => hpq he.symm, List.append_nil]

/-! ## the steps of the server -/

/-- The server moves on without touching the channel. -/
theorem NetInv.moves {phase : ServerPhase} (h : NetInv fb S s hist f)
    (hl : phase.locks = s.server.locks) (hh : f.Holds S { s with server := phase }) :
    NetInv fb S { s with server := phase } hist f :=
  ⟨h.serves, h.owner, h.lockw.trans (by rw [hl]), hh, h.others, h.away, h.valid, h.calls⟩

/-- Polling: a message for the server is a request. -/
theorem NetInv.polls (h : NetInv fb S s hist f) (hs : s.server = .polling ∨ s.server = .napping)
    {phase : ServerPhase} (hphase : phase = .polling ∨ phase = .napping) :
    NetInv fb S { s with server := if s.chnl.dest = S then .ready else phase } hist f := by
  have hunlocked : s.server.locks = false := by
    rcases hs with hs | hs <;> rw [hs] <;> rfl
  have hphaselocks : phase.locks = false := by
    rcases hphase with hs | hs <;> rw [hs] <;> rfl
  have hidle : ∀ {P : ServerPhase → Prop}, P .polling → P .napping → P phase := fun h1 h2 => by
    rcases hphase with hs | hs <;> rw [hs] <;> assumption
  have hholds := h.holds
  have hother : ∀ {phase'}, s.server = phase' → phase' ≠ .polling → phase' ≠ .napping → False := by
    intro phase' h1 h2 h3
    rcases hs with hs | hs
    · exact h2 (h1.symm.trans hs)
    · exact h3 (h1.symm.trans hs)
  cases f with
  | none =>
      have hdest : ¬ s.chnl.dest = S := by
        rw [hholds.1.dest]
        omega
      rw [if_neg hdest]
      exact h.moves (hphaselocks.trans hunlocked.symm)
        ⟨hholds.1, hidle (P := fun q => q = .polling ∨ q = .napping ∨ q = .answered) (.inl rfl)
          (.inr (.inl rfl))⟩
  | request q d =>
      rw [if_pos hholds.1.dest]
      exact h.moves hunlocked.symm ⟨hholds.1, hholds.2.1, .inr (.inr (.inl rfl))⟩
  | handling q d => exact (hother hholds.2.2 ServerPhase.noConfusion ServerPhase.noConfusion).elim
  | answering q d r => exact (hother hholds.2.2.1 ServerPhase.noConfusion ServerPhase.noConfusion).elim
  | addressed q d r =>
      exact (hother hholds.2.2.2.1 ServerPhase.noConfusion ServerPhase.noConfusion).elim
  | reply q d r =>
      have hdest : ¬ s.chnl.dest = S := by
        rw [hholds.1.dest]
        exact fun he => h.away q rfl (Int.ofNat_inj.mp he)
      rw [if_neg hdest]
      exact h.moves (hphaselocks.trans hunlocked.symm)
        ⟨hholds.1, hholds.2.1, hholds.2.2.1,
          hidle (P := fun q => q = .polling ∨ q = .napping ∨ q = .answered) (.inl rfl) (.inr (.inl rfl))⟩

/-- Before it has read a message the server has a request in the channel. -/
theorem Flight.Holds.request (h : f.Holds S s)
    (hs : s.server = .ready ∨ (∃ x, s.server = .sourced x) ∨ ∃ x, s.server = .locked x) :
    ∃ q d, f = .request q d := by
  have hnot : ∀ phase, s.server = phase → phase = .ready ∨ (∃ x, phase = .sourced x) ∨
      ∃ x, phase = .locked x := fun phase h => h ▸ hs
  cases f with
  | none =>
      rcases h.2 with h | h | h <;> rcases hnot _ h with h | ⟨x, h⟩ | ⟨x, h⟩ <;> cases h
  | request q d => exact ⟨q, d, rfl⟩
  | handling q d => rcases hnot _ h.2.2 with h | ⟨x, h⟩ | ⟨x, h⟩ <;> cases h
  | answering q d r => rcases hnot _ h.2.2.1 with h | ⟨x, h⟩ | ⟨x, h⟩ <;> cases h
  | addressed q d r => rcases hnot _ h.2.2.2.1 with h | ⟨x, h⟩ | ⟨x, h⟩ <;> cases h
  | reply q d r =>
      rcases h.2.2.2 with h | h | h <;> rcases hnot _ h with h | ⟨x, h⟩ | ⟨x, h⟩ <;> cases h

/-- **Receiving**: what the server reads is the request of the client that `ECIO_CHNL_GETSOURCE`
has named. -/
theorem NetInv.receives {x : Int} (h : NetInv fb S s hist f) (hs : s.server = .locked x) :
    ∃ f', NetInv fb S { s with
      server := .received x (chnlRead S ECIO_CHNL_BUFSZ s.chnl).1
      chnl := (chnlRead S ECIO_CHNL_BUFSZ s.chnl).2 } hist f' := by
  obtain ⟨q, d, rfl⟩ := h.holds.request (.inr (.inr ⟨x, hs⟩))
  obtain ⟨hcarries, hwaits, hserver⟩ := h.holds
  have hx : x = q := by
    rcases hserver with hx | hx | hx | hx | hx <;> rw [hs] at hx <;> cases hx
    rfl
  have hvalid := (h.valid q d (ClientPhase.Sent.call_eq (.inl hwaits))).2
  have hlockw := h.lockw
  rw [hs] at hlockw
  obtain ⟨hmsg, hempty, howner, hlock⟩ := hcarries.read (by rw [length_request]; exact hvalid.fits)
  refine ⟨.handling q d, h.serves, howner.trans h.owner, hlock.trans hlockw, ⟨hempty, hwaits, ?_⟩,
    h.others, h.away, h.valid, h.calls⟩
  rw [hx, hmsg]

/-- **Serving** the request puts the call at the end of the order. -/
theorem NetInv.processes {x : Int} {wm : Wm} (h : NetInv fb S s hist f) (hs : s.server = .received x m)
    (hm : processMessage fb m s.wm = .ok (some (wm, r))) :
    ∃ hist' f', NetInv fb S { s with server := .answering x r, wm := wm } hist' f' := by
  have hlockw := h.lockw
  rw [hs] at hlockw
  have hholds := h.holds
  have hcalls := h.calls
  cases f with
  | none => rcases hholds.2 with he | he | he <;> rw [hs] at he <;> cases he
  | request q d => rcases hholds.2.2 with he | he | he | he | he <;> rw [hs] at he <;> cases he
  | handling q d =>
      obtain ⟨hempty, hwaits, hserver⟩ := hholds
      rw [hs] at hserver
      obtain ⟨rfl, rfl⟩ := ServerPhase.received.inj hserver
      have hvalid := (h.valid q d (ClientPhase.Sent.call_eq (.inl hwaits))).2
      rw [request_served hvalid] at hm
      refine ⟨hist ++ [.call q d r], .answering q d r, h.serves.call hm, h.owner, hlockw,
        ⟨hempty, hwaits, rfl, serve_gets hm⟩, h.others, h.away, h.valid, fun p => ?_⟩
      have hp := hcalls p
      rw [Flight.pending, List.append_nil] at hp
      rw [callsOf, List.filterMap_append, ← callsOf, hp, Flight.pending]
      by_cases hpq : q = p
      · simp [hpq]
      · simp [hpq]
  | answering q d r =>
      have he := hholds.2.2.1
      rw [hs] at he
      cases he
  | addressed q d r =>
      have he := hholds.2.2.2.1
      rw [hs] at he
      cases he
  | reply q d r => rcases hholds.2.2.2 with he | he | he <;> rw [hs] at he <;> cases he

/-- **Addressing** the answer to the client that has asked. -/
theorem NetInv.addresses {x : Int} (h : NetInv fb S s hist f) (hs : s.server = .answering x r) :
    ∃ f', NetInv fb S { s with
      server := .addressed x r
      chnl := (chnlSetDest S x s.chnl).2 } hist f' := by
  have hlockw := h.lockw
  rw [hs] at hlockw
  have hholds := h.holds
  cases f with
  | none => rcases hholds.2 with he | he | he <;> rw [hs] at he <;> cases he
  | request q d => rcases hholds.2.2 with he | he | he | he | he <;> rw [hs] at he <;> cases he
  | handling q d =>
      have he := hholds.2.2
      rw [hs] at he
      cases he
  | answering q d r' =>
      obtain ⟨hempty, hwaits, hserver, hgets⟩ := hholds
      rw [hs] at hserver
      obtain ⟨rfl, rfl⟩ := ServerPhase.answering.inj hserver
      have hdest : ¬ s.chnl.dest ≥ 0 := by
        rw [hempty.dest]
        decide
      rw [chnlSetDest, if_neg hdest]
      exact ⟨.addressed q d r, h.serves, h.owner, hlockw, ⟨rfl, rfl, hwaits, rfl, hgets⟩, h.others,
        h.away, h.valid, h.calls⟩
  | addressed q d r =>
      have he := hholds.2.2.2.1
      rw [hs] at he
      cases he
  | reply q d r => rcases hholds.2.2.2 with he | he | he <;> rw [hs] at he <;> cases he

theorem ClientPhase.Waits.wake (h : p.Waits c) : p.wake.Sent c := by
  rcases h with h | h | h <;> rw [h]
  · exact .inl (.inl rfl)
  · exact .inl (.inr (.inl rfl))
  · exact .inr (.inl rfl)

theorem ClientPhase.wake_call : p.wake.call = p.call := by
  cases p <;> rfl

/-- **Answering**: the response is in the channel, for the client that has asked. -/
theorem NetInv.answers {x : Int} (h : NetInv fb S s hist f) (hs : s.server = .addressed x r) :
    ∃ f', NetInv fb S { s.write S r.bytes with server := .answered } hist f' := by
  have hlockw := h.lockw
  rw [hs] at hlockw
  have hholds := h.holds
  have hcalls := h.calls
  cases f with
  | none => rcases hholds.2 with he | he | he <;> rw [hs] at he <;> cases he
  | request q d => rcases hholds.2.2 with he | he | he | he | he <;> rw [hs] at he <;> cases he
  | handling q d =>
      have he := hholds.2.2
      rw [hs] at he
      cases he
  | answering q d r =>
      have he := hholds.2.2.1
      rw [hs] at he
      cases he
  | addressed q d r' =>
      obtain ⟨hsource, hdest, hwaits, hserver, hgets⟩ := hholds
      rw [hs] at hserver
      obtain ⟨rfl, rfl⟩ := ServerPhase.addressed.inj hserver
      have hagain : chnlAgain S s.chnl = false := chnlAgain_of_free (.inr hsource) (.inr hlockw)
      have hkeep : (if s.chnl.dest < 0 then s.chnl.owner else s.chnl.dest) = q := by
        rw [hdest, if_neg (by omega)]
      have hcarries := carries_chnlWrite hagain (length_response hgets) hkeep
      have hwrite : s.write S r.bytes = { s with
          chnl := (chnlWrite S r.bytes s.chnl).2
          client := fun pid => if (pid : Int) = (chnlWrite S r.bytes s.chnl).2.dest then
            (s.client pid).wake else s.client pid } := by
        rw [WmNet.write, if_neg (by rw [hagain]; exact Bool.false_ne_true)]
      have hclient : ∀ p, (s.write S r.bytes).client p =
          if p = q then (s.client p).wake else s.client p := by
        intro p
        rw [hwrite]
        dsimp only
        rw [hcarries.dest]
        simp only [Int.ofNat_inj]
      refine ⟨.reply q d r, ?_, ?_, ?_, ⟨?_, ?_, hgets, .inr (.inr rfl)⟩, fun p hne => ?_, h.away,
        fun p e he => ?_, ?_⟩
      · rw [hwrite]
        exact h.serves
      · rw [hwrite]
        exact chnlWrite_owner.trans h.owner
      · rw [hwrite]
        exact chnlWrite_lockw.trans hlockw
      · rw [hwrite]
        exact hcarries
      · have hq := hclient q
        rw [if_pos rfl] at hq
        exact hq ▸ hwaits.wake
      · have hpq : p ≠ q := by
          rintro rfl
          exact hne rfl
        have hp := hclient p
        rw [if_neg hpq] at hp
        exact hp ▸ h.others p hne
      · have hcall : ((s.write S r.bytes).client p).call = (s.client p).call := by
          rw [hclient p]
          split
          · exact ClientPhase.wake_call
          · rfl
        exact h.valid p e (hcall.symm.trans he)
      · rw [hwrite]
        exact hcalls
  | reply q d r => rcases hholds.2.2.2 with he | he | he <;> rw [hs] at he <;> cases he

/-- **Unlocking** lets the next client write. -/
theorem NetInv.unlocks (h : NetInv fb S s hist f) (hs : s.server = .answered) :
    NetInv fb S { s with server := .polling, chnl := (chnlUnlockw S s.chnl).2 } hist f := by
  have hlockw : s.chnl.lockw = S := by
    have hlock := h.lockw
    rw [hs] at hlock
    exact hlock
  have hchnl : (chnlUnlockw S s.chnl).2 = { s.chnl with lockw := -1 } := by
    rw [chnlUnlockw, if_neg (not_not.mpr hlockw)]
  have hholds := h.holds
  rw [hchnl]
  refine ⟨h.serves, h.owner, rfl, ?_, h.others, h.away, h.valid, h.calls⟩
  cases f with
  | none => exact ⟨⟨hholds.1.source, hholds.1.dest⟩, .inl rfl⟩
  | request q d => rcases hholds.2.2 with he | he | he | he | he <;> rw [hs] at he <;> cases he
  | handling q d =>
      have he := hholds.2.2
      rw [hs] at he
      cases he
  | answering q d r =>
      have he := hholds.2.2.1
      rw [hs] at he
      cases he
  | addressed q d r =>
      have he := hholds.2.2.2.1
      rw [hs] at he
      cases he
  | reply q d r =>
      obtain ⟨⟨h1, h2, h3, h4⟩, hsent, hgets, -⟩ := hholds
      exact ⟨⟨h1, h2, h3, h4⟩, hsent, hgets, .inl rfl⟩

/-- **The server** keeps the invariant with each of its steps. -/
theorem NetInv.serverNext (h : NetInv fb S s hist f) (hs : wmServerNext fb S s = some t) :
    ∃ hist' f', NetInv fb S t hist' f' := by
  unfold wmServerNext at hs
  split at hs
  · next hserver =>
      obtain rfl := Option.some.inj hs
      exact ⟨_, _, h.polls (.inl hserver) (.inr rfl)⟩
  · next hserver =>
      obtain rfl := Option.some.inj hs
      exact ⟨_, _, h.polls (.inr hserver) (.inl rfl)⟩
  · next hserver =>
      obtain rfl := Option.some.inj hs
      obtain ⟨q, d, rfl⟩ := h.holds.request (.inl hserver)
      refine ⟨_, _, h.moves (by rw [hserver]; rfl) ⟨h.holds.1, h.holds.2.1, ?_⟩⟩
      rw [h.holds.1.source]
      exact .inr (.inr (.inr (.inl rfl)))
  · next x hserver =>
      obtain rfl := Option.some.inj hs
      obtain ⟨q, d, rfl⟩ := h.holds.request (.inr (.inl ⟨x, hserver⟩))
      obtain ⟨⟨h1, h2, h3, h4⟩, hwaits, hphase⟩ := h.holds
      have hx : x = q := by
        rcases hphase with hx | hx | hx | hx | hx <;> rw [hserver] at hx <;> cases hx
        rfl
      have hlockw : s.chnl.lockw = -1 := by
        have hlock := h.lockw
        rw [hserver] at hlock
        exact hlock
      have hchnl : (chnlLockw S s.chnl).2 = { s.chnl with lockw := S } := by
        rw [chnlLockw, if_neg (by rw [hlockw]; decide)]
      rw [hchnl, hx]
      exact ⟨hist, .request q d, h.serves, h.owner, rfl,
        ⟨⟨h1, h2, h3, h4⟩, hwaits, .inr (.inr (.inr (.inr rfl)))⟩, h.others, h.away, h.valid, h.calls⟩
  · next x hserver =>
      obtain rfl := Option.some.inj hs
      exact ⟨_, h.receives hserver⟩
  · next x m hserver =>
      split at hs
      · next wm r hm =>
          obtain rfl := Option.some.inj hs
          exact h.processes hserver hm
      · cases hs
  · next x r hserver =>
      obtain rfl := Option.some.inj hs
      exact ⟨_, h.addresses hserver⟩
  · next x r hserver =>
      obtain rfl := Option.some.inj hs
      exact ⟨_, h.answers hserver⟩
  · next hserver =>
      obtain rfl := Option.some.inj hs
      exact ⟨_, _, h.unlocks hserver⟩

/-- **Every step** keeps the invariant. -/
theorem NetInv.next {e : WmNetEvent} (h : NetInv fb S s hist f) (hok : Undisturbed S s e)
    (hs : wmNetNext fb S s e = some t) : ∃ hist' f', NetInv fb S t hist' f' := by
  cases e with
  | start pid c =>
      simp only [wmNetNext] at hs
      split at hs
      · next hp =>
          obtain rfl := Option.some.inj hs
          exact ⟨_, _, h.start hp hok.1 hok.2⟩
      · cases hs
  | write pid =>
      simp only [wmNetNext] at hs
      split at hs
      · next c hp =>
          split at hs
          · obtain rfl := Option.some.inj hs
            exact ⟨_, _, h⟩
          · next hagain =>
              obtain rfl := Option.some.inj hs
              exact ⟨_, _, h.write hp (by simpa using hagain)⟩
      · cases hs
  | check pid =>
      simp only [wmNetNext] at hs
      split at hs
      · next c hp =>
          obtain rfl := Option.some.inj hs
          exact ⟨_, _, h.check hp hok⟩
      · cases hs
  | sleep pid =>
      simp only [wmNetNext] at hs
      split at hs
      · next c hp =>
          obtain rfl := Option.some.inj hs
          exact ⟨_, _, h.waits (.inl (.inr (.inl hp))) (.inr (.inr rfl))⟩
      · cases hs
  | resume pid =>
      simp only [wmNetNext] at hs
      split at hs
      · next c hp =>
          obtain rfl := Option.some.inj hs
          exact ⟨_, _, h.resume hp⟩
      · cases hs
  | read pid =>
      simp only [wmNetNext] at hs
      split at hs
      · next c hp =>
          obtain rfl := Option.some.inj hs
          exact ⟨_, _, h.read hp⟩
      · cases hs
  | server => exact h.serverNext hs
  | input e =>
      simp only [wmNetNext] at hs
      split at hs
      · next hserver =>
          obtain ⟨wm, hwm, rfl⟩ := Option.map_eq_some_iff.mp hs
          refine ⟨hist ++ [.event e], f, h.serves.event hwm, h.owner, h.lockw, ?_, h.others, h.away, h.valid,
            fun p => ?_⟩
          · exact h.holds.congr rfl rfl fun _ _ => rfl
          · rw [callsOf, List.filterMap_append, ← callsOf, h.calls p]
            simp
      · cases hs

/-- The start of the server and its clients. -/
theorem WmNet.Start.netInv (h : s.Start S) : NetInv fb S s [] .none := by
  obtain ⟨c, hchnl⟩ := h.chnl
  have hopen : (chnlOpen 0 S c).source = -1 ∧ (chnlOpen 0 S c).dest = -1 := ⟨rfl, rfl⟩
  refine ⟨?_, ?_, ?_, ⟨⟨?_, ?_⟩, .inl h.server⟩, fun p _ => .inl (h.client p), fun p hp => ?_,
    fun p d hd => ?_, fun p => ?_⟩
  · rw [h.wm]
    exact .start
  · rw [hchnl]
    rfl
  · rw [hchnl, h.server]
    rfl
  · rw [hchnl]
    rfl
  · rw [hchnl]
    rfl
  · cases hp
  · rw [h.client p] at hd
    cases hd
  · rw [h.returned p]
    rfl

/-- **One call at a time**: whatever clients and server do in turn, the server has served calls one
after the other, and every client has got the results of its own calls, in their order; at most the
answer to the call it is making is still to come. -/
theorem wmNet_linear (h : (wmNet fb S).Reachable (Undisturbed S) s) :
    ∃ hist, Serves fb hist s.wm ∧ ∀ pid, callsOf pid hist = s.returned pid ∨
      ∃ c r, callsOf pid hist = s.returned pid ++ [(c, c.returns r)] ∧ (s.client pid).call = some c := by
  have hinv : ∃ hist f, NetInv fb S s hist f := by
    refine h.invariant (I := fun s => ∃ hist f, NetInv fb S s hist f) ?_ ?_
    · intro s hs
      exact ⟨[], .none, hs.netInv⟩
    · intro s e t ⟨hist, f, hinv⟩ hok hs
      exact hinv.next hok hs
  obtain ⟨hist, f, hinv⟩ := hinv
  refine ⟨hist, hinv.serves, fun pid => ?_⟩
  have hcalls := hinv.calls pid
  by_cases hfly : f.pid = some pid
  · obtain ⟨c, hc⟩ := hinv.holds.sent hfly
    have hholds := hinv.holds
    cases f with
    | none => cases hfly
    | request q d => exact .inl (hcalls.trans (List.append_nil _))
    | handling q d => exact .inl (hcalls.trans (List.append_nil _))
    | answering q d r =>
        obtain rfl := Option.some.inj hfly
        exact .inr ⟨d, r, by rwa [Flight.pending, if_pos rfl] at hcalls,
          ClientPhase.Sent.call_eq (.inl hholds.2.1)⟩
    | addressed q d r =>
        obtain rfl := Option.some.inj hfly
        exact .inr ⟨d, r, by rwa [Flight.pending, if_pos rfl] at hcalls,
          ClientPhase.Sent.call_eq (.inl hholds.2.2.1)⟩
    | reply q d r =>
        obtain rfl := Option.some.inj hfly
        exact .inr ⟨d, r, by rwa [Flight.pending, if_pos rfl] at hcalls, hholds.2.1.call_eq⟩
  · have hpending : f.pending pid = [] := by
      cases f with
      | none => rfl
      | request q d => rfl
      | handling q d => rfl
      | answering q d r => exact if_neg fun hq => hfly (congrArg some hq)
      | addressed q d r => exact if_neg fun hq => hfly (congrArg some hq)
      | reply q d r => exact if_neg fun hq => hfly (congrArg some hq)
    exact .inl (by rwa [hpending, List.append_nil] at hcalls)

/-- The server as it starts, with nobody calling. -/
def wmNetStart : WmNet :=
  ⟨chnlOpen 0 1 default, Wm.init, .polling, fun _ => .idle, fun _ => [], fun _ => []⟩

theorem wmNetStart_start : wmNetStart.Start 1 := ⟨⟨default, rfl⟩, rfl, rfl, fun _ => rfl, fun _ => rfl⟩

/-- A test for runs in which every call is `open`. -/
def opensUndisturbed (S : Nat) (s : WmNet) : WmNetEvent → Bool
  | .start pid .open => pid != S
  | .start _ _ => false
  | .check _ => match s.server with
    | .addressed _ _ => false
    | _ => true
  | _ => true

theorem WmCall.open_valid : WmCall.open.Valid :=
  ⟨by decide, by decide, fun _ _ _ _ _ h => WmCall.noConfusion h, fun _ _ h => WmCall.noConfusion h⟩

theorem undisturbed_of_test {S : Nat} {s : WmNet} {e : WmNetEvent} (h : opensUndisturbed S s e = true) :
    Undisturbed S s e := by
  cases e with
  | start pid c =>
      cases c with
      | «open» => exact ⟨by simpa [opensUndisturbed] using h, WmCall.open_valid⟩
      | _ => cases h
  | check pid =>
      intro q r hs
      rw [opensUndisturbed, hs] at h
      cases h
  | _ => trivial

/-- Two clients at once; the second has to wait until the first has its answer. -/
theorem wmNet_linear_example :
    ∃ s : WmNet, (s.returned 2).map Prod.snd = [.status true] ∧ s.returned 3 = [] ∧
      ∃ hist, Serves vesaDisplay hist s.wm ∧ ∀ pid, callsOf pid hist = s.returned pid ∨
        ∃ c r, callsOf pid hist = s.returned pid ++ [(c, c.returns r)] ∧
          (s.client pid).call = some c := by
  have hrun : (System.run
      (fun s e => if opensUndisturbed 1 s e then wmNetNext vesaDisplay 1 s e else none) wmNetStart
      [.start 2 .open, .start 3 .open, .write 2, .check 2, .write 3, .server, .server, .server,
        .sleep 2, .server, .server, .server, .server, .resume 2, .server, .read 2, .write 3,
        .check 3]).map (fun s => ((s.returned 2).map Prod.snd, (s.returned 3).map Prod.snd)) =
      some ([.status true], []) := by
    decide +kernel
  obtain ⟨s, hs, hf⟩ := Option.map_eq_some_iff.mp hrun
  obtain ⟨h2, h3⟩ := Prod.mk.inj hf
  have hsteps : (wmNet vesaDisplay 1).Steps (Undisturbed 1) wmNetStart s :=
    System.steps_of_run_if (opensUndisturbed 1) (fun _ _ h => undisturbed_of_test h) hs
  exact ⟨s, h2, List.map_eq_nil_iff.mp h3, wmNet_linear ⟨_, wmNetStart_start, hsteps⟩⟩

/-- A client that tests between the server's `ECIO_CHNL_SETDEST` and its write reads nothing, and
takes the call for failed though the server has made the image. -/
example : (System.run (wmNetNext vesaDisplay 1) wmNetStart
    [.start 2 (.createImage 8 4 2), .write 2, .server, .server, .server, .server, .server, .server,
      .check 2, .read 2]).map (fun s => ((s.returned 2).map Prod.snd, (s.wm.resources 1).id)) =
    some ([.id WM_NULL], 1) := by
  decide +kernel
end Eclair
