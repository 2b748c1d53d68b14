import MuxHiredis.Mux.Reconnect

/-!
# What a context registers

An `xRedisContext` has a pipe, and the event loop has a file event for one of its
ends, with the context as its client data.  `freeXredisContext` undoes neither.
`pipe` itself is taken to succeed; the events of the sockets, whose client data
is never an `xRedisContext`, are left out.
-/

namespace MuxHiredis

namespace Client

/-- The context that the next step in the event loop's functions tears down. -/
def ends (s : Client) : Option ℕ :=
  match s.loop with
  | .ending c => some c
  | .clearingReconn =>
      match s.reconnList with
      | x :: _ => (s.xcs x).ctx
      | [] => none
  | .clearingFree => s.freeAcList.head?
  | _ => none

/-- The steps that make a context. -/
def Action.creates : Action → Bool
  | .connect _ _ | .create _ => true
  | _ => false

theorem stepLoop_ends {s s' : Client} (h : s.stepLoop = some s') :
    (∀ x, (s'.xcs x).made = (s.xcs x).made) ∧
      s'.conns = match s.ends with
        | some c => (s.tear c).conns
        | none => s.conns := by
  have hxcs : ∀ {xcs : ℕ → XContext} {x : ℕ} {xc : XContext}, xc.made = (xcs x).made →
      ∀ x', (Function.update xcs x xc x').made = (xcs x').made :=
    update_kept (fun a b : XContext ↦ b.made = a.made) fun _ ↦ rfl
  cases loopStep_cases h with
  | lostFreed hl _ => simp [ends, hl]
  | lost hl _ => simp [ends, hl]
  | list hl _ => simp [ends, hl]
  | ended hl => simp [ends, hl, tear]
  | clearedReconn hl hlist => simp [ends, hl, hlist]
  | clearNone hl hlist hctx => exact ⟨hxcs rfl, by simp [ends, hl, hlist, hctx]⟩
  | clearSome hl hlist hctx => exact ⟨hxcs rfl, by simp [ends, hl, hlist, hctx]⟩
  | clearedFree hl hlist => simp [ends, hl, hlist]
  | clearFree hl hlist => simp [ends, hl, hlist, tear]

end Client

/-- What a descriptor was opened as. -/
inductive Owner where
  | task (x : ℕ)
  | socket (c : ℕ)
  deriving DecidableEq

/-- What the system calls of a connect give: both ends of the pipe, the
descriptor in the context and whether `aeCreateFileEvent` succeeds. -/
structure Opened where
  taskFd : ℕ × ℕ
  fd : ℤ
  added : Bool
  deriving DecidableEq

/-- `files` has the open descriptors, `attached` the contexts that the event loop
has a `redisAeEvents` for, and `events` the client data of the file events. -/
structure Registrations where
  client : Client
  files : ℕ → Option Owner
  taskFd : ℕ → ℕ × ℕ
  fd : ℕ → ℤ
  attached : ℕ → Bool
  events : ℕ → Option ℕ

namespace Registrations

/-- `refuse` is a connect that finds no memory for its context. -/
inductive Action where
  | client (a : Client.Action) (o : Opened)
  | refuse (x : ℕ) (taskFd : ℕ × ℕ)
  deriving DecidableEq

/-- The system gives out no descriptor that is open. -/
def FreshSocket (s : Registrations) (fd : ℤ) : Prop := 0 < fd → s.files fd.toNat = none

def FreshPipe (s : Registrations) (taskFd : ℕ × ℕ) : Prop :=
  s.files taskFd.1 = none ∧ s.files taskFd.2 = none ∧ taskFd.1 ≠ taskFd.2

instance (s : Registrations) : DecidablePred s.FreshSocket :=
  fun _ ↦ inferInstanceAs (Decidable (_ → _))

instance (s : Registrations) : DecidablePred s.FreshPipe :=
  fun _ ↦ inferInstanceAs (Decidable (_ ∧ _ ∧ _))

/-- The pipe in `xRedisContextInit`. -/
def openPipe (s : Registrations) (x : ℕ) (taskFd : ℕ × ℕ) : Registrations :=
  { s with
    files := Function.update (Function.update s.files taskFd.1 (some (.task x))) taskFd.2
      (some (.task x))
    taskFd := Function.update s.taskFd x taskFd }

/-- The context's `fd` once it was connected, or was not. -/
def openSocket (s : Registrations) (c : ℕ) (fd : ℤ) : Registrations :=
  { s with
    files := if 0 < fd then Function.update s.files fd.toNat (some (.socket c)) else s.files
    fd := Function.update s.fd c fd }

/-- `__initAttachContext`. -/
def initAttachContext (s : Registrations) (x c : ℕ) (added : Bool) : Registrations :=
  { s with
    attached := Function.update s.attached c true
    events := if added then Function.update s.events (s.taskFd x).1 (some x) else s.events }

/-- `redisAeCleanup`. -/
def redisAeCleanup (s : Registrations) (c : ℕ) : Registrations :=
  { s with attached := Function.update s.attached c false }

/-- `redisAeCleanup` if it is still to come, and `redisFree`.  A second teardown
finds nothing that it could rely on. -/
def redisFree (s : Registrations) (c : ℕ) : Registrations :=
  { s.redisAeCleanup c with
    files :=
      if 0 < s.fd c ∧ (s.client.conns c).torn = 0 then
        Function.update s.files (s.fd c).toNat none
      else s.files }

/-- What a step does outside of the client. -/
def effect (s : Registrations) (o : Opened) : Client.Action → Option Registrations
  | .connect x c =>
      if s.FreshPipe o.taskFd ∧ (s.openPipe x o.taskFd).FreshSocket o.fd then
        some (((s.openPipe x o.taskFd).openSocket c o.fd).initAttachContext x c o.added)
      else none
  | .create c => if s.FreshSocket o.fd then some (s.openSocket c o.fd) else none
  | .attach =>
      match s.client.reconnect with
      | .attaching x c => some (s.initAttachContext x c o.added)
      | _ => none
  | .lose c => some (s.redisAeCleanup c)
  | .loop =>
      match s.client.ends with
      | some c => some (s.redisFree c)
      | none => some s
  -- `aeDeleteEventLoop` comes first in `clearClient`.
  | .clear => some { s with events := fun _ ↦ none }
  | _ => some s

def step (s : Registrations) : Action → Option Registrations
  | .client a o =>
      (s.client.step a).bind fun client ↦ (s.effect o a).map fun s ↦ { s with client := client }
  | .refuse x taskFd =>
      if (s.client.xcs x).made = false ∧ s.FreshPipe taskFd then
        some { s.openPipe x taskFd with
          client := s.client.setXc x ⟨true, none, false, false, .no, true⟩ }
      else none

def fresh : Registrations where
  client := .fresh
  files := fun _ ↦ none
  taskFd := fun _ ↦ (0, 0)
  fd := fun _ ↦ 0
  attached := fun _ ↦ false
  events := fun _ ↦ none

def machine : Machine Registrations Action := ⟨(· = fresh), step⟩

/-- Nothing is left of a context: no file event has it as its client data, no
context that is attached to the event loop belongs to it, and its pipe is
closed. -/
structure Released (s : Registrations) (x : ℕ) : Prop where
  events : ∀ fd, s.events fd ≠ some x
  attached : ∀ c, s.attached c = true → (s.client.conns c).xc ≠ x
  reading : s.files (s.taskFd x).1 ≠ some (.task x)
  writing : s.files (s.taskFd x).2 ≠ some (.task x)

variable {s s' : Registrations}

/-! ## Descriptors stay apart -/

/-- The pipe of every context is open, and so is the socket of every context that
was not torn down. -/
structure Held (s : Registrations) : Prop where
  pipe : ∀ x, (s.client.xcs x).made = true →
    s.files (s.taskFd x).1 = some (.task x) ∧ s.files (s.taskFd x).2 = some (.task x)
  socket : ∀ c, (s.client.conns c).made = true → (s.client.conns c).torn = 0 → 0 < s.fd c →
    s.files (s.fd c).toNat = some (.socket c)
  unmade : ∀ c, (s.client.conns c).made = false → s.fd c = 0

/-- A new pipe takes nothing that is in use. -/
theorem files_openPipe {x : ℕ} {taskFd : ℕ × ℕ} (hfresh : s.FreshPipe taskFd) {fd : ℕ}
    {owner : Owner} (hfd : s.files fd = some owner) :
    (s.openPipe x taskFd).files fd = some owner := by
  obtain ⟨hread, hwrite, -⟩ := hfresh
  have hne : fd ≠ taskFd.1 := by
    rintro rfl
    simp [hread] at hfd
  have hne' : fd ≠ taskFd.2 := by
    rintro rfl
    simp [hwrite] at hfd
  simp only [openPipe]
  rwa [Function.update_of_ne hne', Function.update_of_ne hne]

theorem files_openPipe_self (s : Registrations) (x : ℕ) (taskFd : ℕ × ℕ) :
    (s.openPipe x taskFd).files taskFd.1 = some (.task x) ∧
      (s.openPipe x taskFd).files taskFd.2 = some (.task x) := by
  constructor
  · by_cases heq : taskFd.1 = taskFd.2
    · simp [openPipe, heq]
    · simp [openPipe, Function.update_of_ne heq]
  · simp [openPipe]

/-- Nor does a new socket. -/
theorem files_openSocket {c : ℕ} {fd : ℤ} (hfresh : s.FreshSocket fd) {n : ℕ} {owner : Owner}
    (hn : s.files n = some owner) : (s.openSocket c fd).files n = some owner := by
  unfold openSocket
  split
  · rename_i hpos
    have hne : n ≠ fd.toNat := by
      rintro rfl
      simp [hfresh hpos] at hn
    simp only
    rwa [Function.update_of_ne hne]
  · exact hn

theorem Held.openPipe (h : s.Held) {x : ℕ} {taskFd : ℕ × ℕ} (hfresh : s.FreshPipe taskFd)
    {client : Client} (hconns : client.conns = s.client.conns)
    (hmade : ∀ x', x' ≠ x → (client.xcs x').made = (s.client.xcs x').made) :
    Held { s.openPipe x taskFd with client := client } := by
  constructor
  · intro x' hx'
    by_cases hx : x' = x
    · subst hx
      have hself := files_openPipe_self s x' taskFd
      simpa [Registrations.openPipe] using hself
    · simp only [hmade x' hx] at hx'
      obtain ⟨hread, hwrite⟩ := h.pipe x' hx'
      have htask : (s.openPipe x taskFd).taskFd x' = s.taskFd x' := Function.update_of_ne hx ..
      simp only [htask]
      exact ⟨files_openPipe hfresh hread, files_openPipe hfresh hwrite⟩
  · intro c hc htorn hpos
    simp only [hconns] at hc htorn
    exact files_openPipe hfresh (h.socket c hc htorn hpos)
  · intro c hc
    simp only [hconns] at hc
    exact h.unmade c hc

theorem Held.openSocket (h : s.Held) {c : ℕ} {fd : ℤ} (hfresh : s.FreshSocket fd)
    (client : Client) (hmade : ∀ x, (client.xcs x).made = (s.client.xcs x).made)
    (hself : (client.conns c).made = true)
    (hconns : ∀ c', c' ≠ c → client.conns c' = s.client.conns c') :
    Held { s.openSocket c fd with client := client } := by
  constructor
  · intro x hx
    simp only [hmade] at hx
    obtain ⟨hread, hwrite⟩ := h.pipe x hx
    exact ⟨files_openSocket hfresh hread, files_openSocket hfresh hwrite⟩
  · intro c' hc' htorn hpos
    by_cases hc : c' = c
    · subst hc
      have hfd : (s.openSocket c' fd).fd c' = fd := Function.update_self ..
      simp only [hfd] at hpos ⊢
      simp [Registrations.openSocket, hpos]
    · have hfd : (s.openSocket c fd).fd c' = s.fd c' := Function.update_of_ne hc ..
      simp only [hfd, hconns c' hc] at hc' htorn hpos ⊢
      exact files_openSocket hfresh (h.socket c' hc' htorn hpos)
  · intro c' hc'
    have hc : c' ≠ c := by
      rintro rfl
      simp [hself] at hc'
    have hfd : (s.openSocket c fd).fd c' = s.fd c' := Function.update_of_ne hc ..
    simp only [hconns c' hc] at hc'
    exact hfd.trans (h.unmade c' hc')

/-- Only the client, the attachments and the events changed. -/
theorem Held.frame (h : s.Held) (hfiles : s'.files = s.files) (htask : s'.taskFd = s.taskFd)
    (hfd : s'.fd = s.fd) (hmade : ∀ x, (s'.client.xcs x).made = (s.client.xcs x).made)
    (hconns : ∀ c, (s'.client.conns c).made = (s.client.conns c).made ∧
      (s'.client.conns c).torn = (s.client.conns c).torn) : s'.Held := by
  constructor
  · intro x hx
    rw [hfiles, htask]
    exact h.pipe x ((hmade x).symm.trans hx)
  · intro c hc htorn hpos
    rw [hfd] at hpos
    rw [hfiles, hfd]
    exact h.socket c ((hconns c).1.symm.trans hc) ((hconns c).2.symm.trans htorn) hpos
  · intro c hc
    rw [hfd]
    exact h.unmade c ((hconns c).1.symm.trans hc)

/-- A teardown closes a descriptor that is no pipe's and no other context's. -/
theorem Held.redisFree (h : s.Held) {c : ℕ} {client : Client}
    (hxcs : ∀ x, (client.xcs x).made = (s.client.xcs x).made)
    (hconns : client.conns = (s.client.tear c).conns) :
    Held { s.redisFree c with client := client } := by
  have hkeep : ∀ {n : ℕ} {owner : Owner}, owner ≠ .socket c → s.files n = some owner →
      (s.redisFree c).files n = some owner := by
    intro n owner howner hn
    simp only [Registrations.redisFree]
    split
    · rename_i hclose
      have hmade : (s.client.conns c).made = true := by
        by_contra hmade
        have hzero := h.unmade c (eq_false_of_ne_true hmade)
        omega
      have hown := h.socket c hmade hclose.2 hclose.1
      have hne : n ≠ (s.fd c).toNat := by
        rintro rfl
        exact howner (Option.some.inj (hn.symm.trans hown))
      rwa [Function.update_of_ne hne]
    · exact hn
  constructor
  · intro x hx
    simp only [hxcs] at hx
    obtain ⟨hread, hwrite⟩ := h.pipe x hx
    exact ⟨hkeep (by simp) hread, hkeep (by simp) hwrite⟩
  · intro c' hc' htorn hpos
    simp only [hconns, Client.tear, Client.conns_setConn] at hc' htorn
    by_cases hc : c' = c
    · subst hc
      simp at htorn
    · rw [Function.update_of_ne hc] at hc' htorn
      exact hkeep (by simpa using hc) (h.socket c' hc' htorn hpos)
  · intro c' hc'
    simp only [hconns, Client.tear, Client.conns_setConn] at hc'
    by_cases hc : c' = c
    · subst hc
      exact h.unmade c' (by simpa using hc')
    · rw [Function.update_of_ne hc] at hc'
      exact h.unmade c' hc'

/-- What the steps that make no context keep of the client. -/
theorem client_kept {s s' : Client} {a : Client.Action} (hstep : s.step a = some s')
    (hcreates : a.creates = false) (hloop : a ≠ .loop) :
    (∀ x, (s'.xcs x).made = (s.xcs x).made) ∧
      ∀ c, (s'.conns c).made = (s.conns c).made ∧ (s'.conns c).torn = (s.conns c).torn := by
  have hxcs : ∀ {xcs : ℕ → XContext} {x : ℕ} {xc : XContext}, xc.made = (xcs x).made →
      ∀ x', (Function.update xcs x xc x').made = (xcs x').made :=
    Client.update_kept (fun a b : XContext ↦ b.made = a.made) fun _ ↦ rfl
  have hconns : ∀ {conns : ℕ → Conn} {c : ℕ} {conn : Conn}, conn.made = (conns c).made →
      conn.torn = (conns c).torn → ∀ c',
        (Function.update conns c conn c').made = (conns c').made ∧
          (Function.update conns c conn c').torn = (conns c').torn := by
    intro conns c conn hmade htorn
    exact Client.update_kept (fun a b : Conn ↦ b.made = a.made ∧ b.torn = a.torn)
      (fun _ ↦ ⟨rfl, rfl⟩) ⟨hmade, htorn⟩
  cases Client.step_cases hstep with
  | connect _ _ => simp [Client.Action.creates] at hcreates
  | create _ _ => simp [Client.Action.creates] at hcreates
  | loop _ => exact (hloop rfl).elim
  | wake _ _ => exact ⟨hxcs rfl, fun _ ↦ ⟨rfl, rfl⟩⟩
  | reconnect _ _ _ => exact ⟨hxcs rfl, fun _ ↦ ⟨rfl, rfl⟩⟩
  | abandon _ => exact ⟨fun _ ↦ rfl, fun _ ↦ ⟨rfl, rfl⟩⟩
  | attach _ => exact ⟨fun _ ↦ rfl, fun _ ↦ ⟨rfl, rfl⟩⟩
  | resumeUp _ _ => exact ⟨fun _ ↦ rfl, fun _ ↦ ⟨rfl, rfl⟩⟩
  | resumeDown _ _ => exact ⟨hxcs rfl, fun _ ↦ ⟨rfl, rfl⟩⟩
  | remove _ => exact ⟨fun _ ↦ rfl, fun _ ↦ ⟨rfl, rfl⟩⟩
  | establish _ _ => exact ⟨hxcs rfl, hconns rfl rfl⟩
  | fail _ _ => exact ⟨fun _ ↦ rfl, fun _ ↦ ⟨rfl, rfl⟩⟩
  | lose _ _ => exact ⟨hxcs rfl, hconns rfl rfl⟩
  | deal _ _ => exact ⟨fun _ ↦ rfl, fun _ ↦ ⟨rfl, rfl⟩⟩
  | freeNone _ _ => exact ⟨hxcs rfl, fun _ ↦ ⟨rfl, rfl⟩⟩
  | freeSome _ _ => exact ⟨hxcs rfl, hconns rfl rfl⟩
  | unlist _ _ _ => exact ⟨hxcs rfl, fun _ ↦ ⟨rfl, rfl⟩⟩
  | release _ _ => exact ⟨hxcs rfl, fun _ ↦ ⟨rfl, rfl⟩⟩
  | stop => exact ⟨fun _ ↦ rfl, fun _ ↦ ⟨rfl, rfl⟩⟩
  | clear _ _ _ => exact ⟨fun _ ↦ rfl, fun _ ↦ ⟨rfl, rfl⟩⟩

/-- The steps that open and close nothing. -/
theorem effect_quiet {o : Opened} {a : Client.Action} (h : s.effect o a = some s')
    (hcreates : a.creates = false) (hloop : a ≠ .loop) :
    s'.files = s.files ∧ s'.taskFd = s.taskFd ∧ s'.fd = s.fd := by
  unfold effect at h
  split at h
  · simp [Client.Action.creates] at hcreates
  · simp [Client.Action.creates] at hcreates
  · split at h
    · exact Option.some.inj h ▸ ⟨rfl, rfl, rfl⟩
    · simp at h
  · exact Option.some.inj h ▸ ⟨rfl, rfl, rfl⟩
  · exact (hloop rfl).elim
  · exact Option.some.inj h ▸ ⟨rfl, rfl, rfl⟩
  · exact Option.some.inj h ▸ ⟨rfl, rfl, rfl⟩

theorem Held.step (h : s.Held) {a : Action} (hstep : s.step a = some s') : s'.Held := by
  cases a with
  | refuse x taskFd =>
      simp only [Registrations.step, Option.ite_none_right_eq_some, Option.some.injEq] at hstep
      obtain ⟨⟨-, hfresh⟩, rfl⟩ := hstep
      exact h.openPipe hfresh rfl fun x' hx ↦ by simp [Function.update_of_ne hx]
  | client a o =>
      obtain ⟨client, hclient, hstep⟩ := Option.bind_eq_some_iff.mp hstep
      obtain ⟨s₁, heffect, rfl⟩ := Option.map_eq_some_iff.mp hstep
      by_cases hloop : a = .loop
      · subst hloop
        obtain ⟨hxcs, hconns⟩ := Client.stepLoop_ends hclient
        simp only [effect] at heffect
        cases hends : s.client.ends with
        | none =>
            simp only [hends, Option.some.injEq] at heffect hconns
            subst heffect
            refine h.frame rfl rfl rfl hxcs fun c ↦ ?_
            rw [hconns]
            exact ⟨rfl, rfl⟩
        | some c =>
            simp only [hends, Option.some.injEq] at heffect hconns
            subst heffect
            exact h.redisFree hxcs hconns
      · cases hcreates : a.creates with
        | false =>
            obtain ⟨hfiles, htask, hfd⟩ := effect_quiet heffect hcreates hloop
            obtain ⟨hxcs, hconns⟩ := client_kept hclient hcreates hloop
            exact h.frame hfiles htask hfd hxcs hconns
        | true =>
            cases Client.step_cases hclient with
            | @connect x c hx hc =>
                simp only [effect, Option.ite_none_right_eq_some, Option.some.injEq] at heffect
                obtain ⟨⟨hpipe, hsocket⟩, rfl⟩ := heffect
                have hopened : Held { s.openPipe x o.taskFd with
                    client := s.client.setXc x ⟨true, some c, false, true, .no, false⟩ } :=
                  h.openPipe hpipe rfl fun x' hx' ↦ by simp [Function.update_of_ne hx']
                have hheld := hopened.openSocket (c := c) hsocket
                  ((s.client.setConn c (.create x)).setXc x
                    ⟨true, some c, false, true, .no, false⟩) (fun _ ↦ rfl)
                  (by simp [Conn.create]) fun c' hc' ↦ by simp [Function.update_of_ne hc']
                exact hheld.frame rfl rfl rfl (fun _ ↦ rfl) fun _ ↦ ⟨rfl, rfl⟩
            | @create x c _ _ =>
                simp only [effect, Option.ite_none_right_eq_some, Option.some.injEq] at heffect
                obtain ⟨hsocket, rfl⟩ := heffect
                refine h.openSocket hsocket _ (fun x' ↦ ?_) (by simp [Conn.create])
                  fun c' hc' ↦ by simp [Function.update_of_ne hc']
                by_cases hx : x' = x
                · subst hx
                  simp
                · simp [Function.update_of_ne hx]
            | _ => simp [Client.Action.creates] at hcreates

theorem fresh_held : fresh.Held := by
  constructor <;> simp [fresh, Client.fresh, XContext.absent, Conn.absent]

theorem Held.reachable (h : machine.Reachable s) : s.Held := by
  refine h.invariant ?_ ?_
  · rintro s rfl
    exact fresh_held
  · intro s a s' hs _ hstep
    exact hs.step hstep

/-! ## Events stay -/

theorem base_refuse {s : Client} (h : s.Base) {x : ℕ} (hx : (s.xcs x).made = false)
    (xc : XContext) (hctx : xc.ctx = none) : (s.setXc x xc).Base := by
  have hne : ∀ {x'}, (s.xcs x').made = true → x' ≠ x := by
    rintro x' hx' rfl
    simp [hx] at hx'
  have hother : ∀ c, (s.conns c).made = true →
      (s.setXc x xc).xcs (s.conns c).xc = s.xcs (s.conns c).xc := fun c hc ↦
    Function.update_of_ne (hne (h.made c hc)) ..
  constructor
  case owns => exact h.owns.frame (fun _ ↦ ⟨rfl, rfl⟩) (Client.ctx_update (Or.inr hctx))
  case made =>
    intro c hc
    rw [Client.conns_setXc, hother c hc]
    exact h.made c hc
  case lost => exact h.lost
  case status =>
    intro c hc hno
    rw [Client.conns_setXc, hother c hc] at hno
    exact h.status c hc hno
  case queue =>
    intro c hc
    obtain ⟨hmade, hno⟩ := h.queue c hc
    rw [Client.conns_setXc, hother c hmade]
    exact ⟨hmade, hno⟩
  case target =>
    intro c hc
    obtain ⟨hmade, hwhy⟩ := h.target c hc
    rw [Client.conns_setXc, hother c hmade]
    exact ⟨hmade, hwhy⟩
  case listed =>
    intro x' hx'
    rw [Client.xcs_setXc, Function.update_of_ne (hne (h.listed x' hx'))]
    exact h.listed x' hx'
  case nodup => exact h.nodup
  case attempt => exact h.attempt

theorem base_step (h : s.client.Base) {a : Action} (hstep : s.step a = some s') :
    s'.client.Base := by
  cases a with
  | refuse x taskFd =>
      simp only [Registrations.step, Option.ite_none_right_eq_some, Option.some.injEq] at hstep
      obtain ⟨⟨hx, -⟩, rfl⟩ := hstep
      exact base_refuse h hx _ rfl
  | client a o =>
      obtain ⟨client, hclient, hstep⟩ := Option.bind_eq_some_iff.mp hstep
      obtain ⟨s₁, -, rfl⟩ := Option.map_eq_some_iff.mp hstep
      exact h.step hclient

theorem made_step {x : ℕ} (hmade : (s.client.xcs x).made = true) {a : Action}
    (hstep : s.step a = some s') : (s'.client.xcs x).made = true := by
  cases a with
  | refuse y taskFd =>
      simp only [Registrations.step, Option.ite_none_right_eq_some, Option.some.injEq] at hstep
      obtain ⟨⟨hy, -⟩, rfl⟩ := hstep
      have hne : x ≠ y := by
        rintro rfl
        simp [hmade] at hy
      simpa [Function.update_of_ne hne] using hmade
  | client a o =>
      obtain ⟨client, hclient, hstep⟩ := Option.bind_eq_some_iff.mp hstep
      obtain ⟨s₁, -, rfl⟩ := Option.map_eq_some_iff.mp hstep
      by_cases hloop : a = .loop
      · subst hloop
        exact ((Client.stepLoop_ends hclient).1 x).trans hmade
      · cases hcreates : a.creates with
        | false => exact ((client_kept hclient hcreates hloop).1 x).trans hmade
        | true =>
            cases Client.step_cases hclient with
            | @connect y c hy _ =>
                have hne : x ≠ y := by
                  rintro rfl
                  simp [hmade] at hy
                simpa [Function.update_of_ne hne] using hmade
            | @create y c _ _ =>
                by_cases hxy : x = y
                · subst hxy
                  simpa using hmade
                · simpa [Function.update_of_ne hxy] using hmade
            | _ => simp [Client.Action.creates] at hcreates

/-- Two contexts have no end of a pipe in common. -/
theorem Held.taskFd_ne (h : s.Held) {x y : ℕ} (hx : (s.client.xcs x).made = true)
    (hy : (s.client.xcs y).made = true) (hne : y ≠ x) : (s.taskFd y).1 ≠ (s.taskFd x).1 := by
  intro heq
  have hown := (h.pipe y hy).1
  rw [heq, (h.pipe x hx).1, Option.some.injEq, Owner.task.injEq] at hown
  exact hne hown.symm

/-- Attaching a context writes to no other context's event. -/
theorem event_initAttachContext {x y : ℕ} (c : ℕ) {added : Bool}
    (hevent : s.events (s.taskFd x).1 = some x) (hne : y ≠ x → (s.taskFd y).1 ≠ (s.taskFd x).1) :
    (s.initAttachContext y c added).events (s.taskFd x).1 = some x := by
  simp only [initAttachContext]
  split
  · by_cases hy : y = x
    · simp [hy]
    · rw [Function.update_of_ne (hne hy).symm]
      exact hevent
  · exact hevent

/-- The event of a pipe has its context as client data, and no step but
`clearClient` takes it away. -/
theorem event_kept (h : s.Held) (hbase : s.client.Base) {x : ℕ}
    (hmade : (s.client.xcs x).made = true) (hevent : s.events (s.taskFd x).1 = some x) {a : Action}
    (hclear : ∀ o, a ≠ .client .clear o) (hstep : s.step a = some s') :
    s'.events (s'.taskFd x).1 = some x := by
  have hnew : ∀ {y}, (s.client.xcs y).made = false → x ≠ y := by
    rintro y hy rfl
    simp [hmade] at hy
  cases a with
  | refuse y taskFd =>
      simp only [Registrations.step, Option.ite_none_right_eq_some, Option.some.injEq] at hstep
      obtain ⟨⟨hy, -⟩, rfl⟩ := hstep
      simp only [openPipe, Function.update_of_ne (hnew hy)]
      exact hevent
  | client a o =>
      obtain ⟨client, hclient, hstep⟩ := Option.bind_eq_some_iff.mp hstep
      obtain ⟨s₁, heffect, rfl⟩ := Option.map_eq_some_iff.mp hstep
      cases a with
      | connect y c =>
          simp only [effect, Option.ite_none_right_eq_some, Option.some.injEq] at heffect
          obtain ⟨⟨hpipe, -⟩, rfl⟩ := heffect
          obtain ⟨hy, -⟩ : (s.client.xcs y).made = false ∧ (s.client.conns c).made = false := by
            cases Client.step_cases hclient with
            | connect hx hc => exact ⟨hx, hc⟩
          have htask : (s.openPipe y o.taskFd).taskFd x = s.taskFd x :=
            Function.update_of_ne (hnew hy) ..
          have hself : (s.openPipe y o.taskFd).taskFd y = o.taskFd := Function.update_self ..
          have hown := (files_openPipe_self s y o.taskFd).1
          have hkept := files_openPipe (x := y) hpipe (h.pipe x hmade).1
          refine event_initAttachContext (s := (s.openPipe y o.taskFd).openSocket c o.fd)
            c (htask ▸ hevent) fun hne heq ↦ ?_
          simp only [openSocket, hself, htask] at heq
          rw [← heq, hown, Option.some.injEq, Owner.task.injEq] at hkept
          exact hne hkept
      | create c =>
          simp only [effect, Option.ite_none_right_eq_some, Option.some.injEq] at heffect
          obtain ⟨-, rfl⟩ := heffect
          exact hevent
      | attach =>
          simp only [effect] at heffect
          split at heffect
          · rename_i y c hat
            obtain rfl := Option.some.inj heffect
            have hy : (s.client.xcs y).made = true :=
              hbase.listed y (hbase.attempt y (by rw [hat]; rfl)).1
            exact event_initAttachContext c hevent (h.taskFd_ne hmade hy)
          · simp at heffect
      | loop =>
          simp only [effect] at heffect
          split at heffect <;>
          · obtain rfl := Option.some.inj heffect
            exact hevent
      | clear => exact (hclear o rfl).elim
      | _ =>
          obtain rfl := Option.some.inj heffect
          exact hevent

/-- The event outlives its context: it is there after every run without
`clearClient`. -/
theorem run_event_kept (h : s.Held) (hbase : s.client.Base) {x : ℕ}
    (hmade : (s.client.xcs x).made = true) (hevent : s.events (s.taskFd x).1 = some x)
    {actions : List Action} (hclear : ∀ o, .client .clear o ∉ actions)
    (hrun : machine.run s actions = some s') : s'.events (s'.taskFd x).1 = some x := by
  induction actions generalizing s with
  | nil => exact Option.some.inj hrun ▸ hevent
  | cons a rest ih =>
      obtain ⟨s₁, hstep, hrest⟩ := Option.bind_eq_some_iff.mp hrun
      have hne : ∀ o, a ≠ .client .clear o := by
        rintro o rfl
        exact hclear o List.mem_cons_self
      refine ih (h.step hstep) (base_step hbase hstep) ?_
        (event_kept h hbase hmade hevent hne hstep)
        (fun o hmem ↦ hclear o (List.mem_cons_of_mem a hmem)) hrest
      exact made_step hmade hstep

/-! ## What is left of a freed context -/

/-- Nothing closes the pipe of a context, so that something is left of each. -/
theorem freed_unreleased (h : machine.Reachable s) {x : ℕ} (hmade : (s.client.xcs x).made = true)
    (_hfreed : (s.client.xcs x).freed = true) :
    s.files (s.taskFd x).1 = some (.task x) ∧ s.files (s.taskFd x).2 = some (.task x) ∧
      ¬s.Released x := by
  obtain ⟨hread, hwrite⟩ := (Held.reachable h).pipe x hmade
  exact ⟨hread, hwrite, fun hreleased ↦ hreleased.reading hread⟩

/-- A context that was connected and then freed by `xRedisFree`. -/
theorem freed_unreleased_free :
    ∃ s, machine.run fresh
      ([.connect 0 0, .establish 0, .wake 0, .free 0, .deal, .loop, .unlist 0, .release 0].map
        fun a ↦ .client a ⟨(5, 6), 7, true⟩) = some s ∧
      (s.client.xcs 0).freed = true ∧ ¬s.Released 0 := by
  obtain ⟨s, hrun, hfreed⟩ := machine.run_spec fresh
    ([Client.Action.connect 0 0, .establish 0, .wake 0, .free 0, .deal, .loop, .unlist 0,
      .release 0].map fun a ↦ Action.client a ⟨(5, 6), 7, true⟩)
    (fun s ↦ (s.client.xcs 0).made && (s.client.xcs 0).freed) (by decide +kernel)
  obtain ⟨hmade, hfreed⟩ := (Bool.and_eq_true_iff).mp hfreed
  exact ⟨s, hrun, hfreed,
    (freed_unreleased (Machine.Reachable.run (.start rfl) hrun) hmade hfreed).2.2⟩

/-- A connect that times out leaves the pipe open, its event, and a context that
will come back to the freed memory. -/
theorem timeout_unreleased :
    ∃ s, machine.run fresh
      [.client (.connect 0 0) ⟨(5, 6), 7, true⟩, .client (.wake 0) ⟨(0, 0), 0, false⟩] = some s ∧
      machine.Reachable s ∧ (s.client.xcs 0).freed = true ∧
      (s.events 5 = some 0 ∧ s.attached 0 = true ∧ (s.client.conns 0).xc = 0 ∧
        s.files 5 = some (.task 0) ∧ s.files 6 = some (.task 0)) ∧ ¬s.Released 0 := by
  obtain ⟨s, hrun, hs⟩ := machine.run_spec fresh
    [.client (.connect 0 0) ⟨(5, 6), 7, true⟩, .client (.wake 0) ⟨(0, 0), 0, false⟩]
    (fun s ↦ decide ((s.client.xcs 0).freed = true ∧ s.events 5 = some 0 ∧ s.attached 0 = true ∧
      (s.client.conns 0).xc = 0 ∧ s.files 5 = some (.task 0) ∧ s.files 6 = some (.task 0)))
    (by decide +kernel)
  obtain ⟨hfreed, hleft⟩ := of_decide_eq_true hs
  exact ⟨s, hrun, .run (.start rfl) hrun, hfreed, hleft, fun hreleased ↦ hreleased.events 5 hleft.1⟩

end Registrations

end MuxHiredis
