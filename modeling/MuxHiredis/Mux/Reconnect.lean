import MuxHiredis.Mux.Current
import Mathlib.Data.List.Nodup

/-!
# The list of connections to restore

`disconnectedCallback` puts an `xRedisContext` into `client.reconn_list`, in three
sections; the reconnect thread and `xRedisFree` take it out.
-/

namespace MuxHiredis

/-- The `xRedisContext` of the present attempt. -/
def ReconnectThread.target : ReconnectThread → Option ℕ
  | .idle => none
  | .creating x | .attaching x _ | .waiting x _ | .removing x => some x

namespace Client

/-! ## What every run keeps -/

structure Base (s : Client) : Prop where
  owns : s.Owns
  made : ∀ c, (s.conns c).made = true → (s.xcs (s.conns c).xc).made = true
  lost : ∀ c, (s.conns c).lost = true → (s.conns c).connected = true
  status : ∀ c, (s.conns c).made = true → (s.xcs (s.conns c).xc).leaving = .no →
    (s.conns c).status = 0
  queue : ∀ c ∈ s.freeAcList, (s.conns c).made = true ∧ (s.xcs (s.conns c).xc).leaving ≠ .no
  target : ∀ c, s.loop.target = some c → (s.conns c).made = true ∧
    ((s.conns c).connected = false ∨ (s.conns c).lost = true ∨
      (s.xcs (s.conns c).xc).leaving ≠ .no)
  listed : ∀ x ∈ s.reconnList, (s.xcs x).made = true
  nodup : s.reconnList.Nodup
  attempt : ∀ x, s.reconnect.target = some x → x ∈ s.reconnList ∧ s.loop ≠ .clearingReconn

theorem fresh_base : fresh.Base := by
  constructor <;> intros <;>
    simp_all [fresh, Conn.absent, XContext.absent, EventLoop.target, ReconnectThread.target, Owns]

/-- A step that changes one `xc` and one context, and makes neither. -/
theorem Base.frame {s s' : Client} (h : s.Base) (howns : s'.Owns) {x c : ℕ} {xc : XContext}
    {conn : Conn} (hxcs : s'.xcs = Function.update s.xcs x xc)
    (hconns : s'.conns = Function.update s.conns c conn)
    (hxc : xc.made = (s.xcs x).made ∧ (xc.leaving = .no → (s.xcs x).leaving = .no))
    (hconn : conn.made = (s.conns c).made ∧ conn.xc = (s.conns c).xc ∧
      ((s'.xcs conn.xc).leaving = .no → conn.status = (s.conns c).status))
    (hlost : conn.lost = true → conn.connected = true)
    (hqueue : ∀ c ∈ s'.freeAcList, c ∈ s.freeAcList ∨
      (s.conns c).made = true ∧ (s'.xcs (s.conns c).xc).leaving ≠ .no)
    (htarget : ∀ c', s'.loop.target = some c' → (s.conns c').made = true ∧
      ((s'.conns c').connected = false ∨ (s'.conns c').lost = true ∨
        (s.xcs (s.conns c').xc).leaving ≠ .no))
    (hlist : s'.reconnList.Sublist s.reconnList) (hattempt : ∀ x, s'.reconnect.target = some x →
      x ∈ s'.reconnList ∧ s'.loop ≠ .clearingReconn) : s'.Base := by
  have hx : ∀ x', (s'.xcs x').made = (s.xcs x').made ∧
      ((s'.xcs x').leaving = .no → (s.xcs x').leaving = .no) := by
    intro x'
    rw [hxcs]
    exact update_kept (fun a b : XContext ↦ b.made = a.made ∧ (b.leaving = .no → a.leaving = .no))
      (fun _ ↦ ⟨rfl, id⟩) hxc x'
  have hc : ∀ c', (s'.conns c').made = (s.conns c').made ∧ (s'.conns c').xc = (s.conns c').xc ∧
      ((s'.xcs (s.conns c').xc).leaving = .no → (s'.conns c').status = (s.conns c').status) := by
    intro c'
    rw [hconns]
    by_cases hc : c' = c
    · subst hc
      simpa [hconn.2.1] using hconn
    · simp [hc]
  refine ⟨howns, fun c' ↦ ?_, fun c' ↦ ?_, fun c' hmade hno ↦ ?_, fun c' hc' ↦ ?_,
    fun c' hc' ↦ ?_, fun x hx' ↦ ?_, h.nodup.sublist hlist, hattempt⟩
  · rw [(hc c').1, (hc c').2.1, (hx _).1]
    exact h.made c'
  · rw [hconns]
    by_cases hc : c' = c
    · subst hc
      simpa using hlost
    · simpa [hc] using h.lost c'
  · rw [(hc c').1] at hmade
    rw [(hc c').2.1] at hno
    rw [(hc c').2.2 hno]
    exact h.status c' hmade ((hx _).2 hno)
  · rw [(hc c').1, (hc c').2.1]
    rcases hqueue c' hc' with hc' | hc'
    · exact (h.queue c' hc').imp_right fun hno hno' ↦ hno ((hx _).2 hno')
    · exact hc'
  · rw [(hc c').1, (hc c').2.1]
    obtain ⟨hmade, hwhy⟩ := htarget c' hc'
    exact ⟨hmade, hwhy.imp_right fun hwhy ↦ hwhy.imp_right fun hno hno' ↦ hno ((hx _).2 hno')⟩
  · rw [(hx x).1]
    exact h.listed x (hlist.subset hx')

theorem Base.create {s s' : Client} (h : s.Base) (howns : s'.Owns) {x c : ℕ} {xc : XContext}
    (hmade : (s.conns c).made = false) (hconns : s'.conns = Function.update s.conns c (.create x))
    (hxcs : s'.xcs = Function.update s.xcs x xc)
    (hxc : xc.made = true ∧ ((s.xcs x).made = true → xc.leaving = (s.xcs x).leaving))
    (hqueue : s'.freeAcList = s.freeAcList) (hloop : s'.loop = s.loop)
    (hlist : s'.reconnList = s.reconnList) (hattempt : ∀ x, s'.reconnect.target = some x →
      x ∈ s.reconnList ∧ s'.loop ≠ .clearingReconn) : s'.Base := by
  have hold : ∀ c', (s.conns c').made = true → s'.conns c' = s.conns c' ∧
      (s'.xcs (s.conns c').xc).made = true ∧
      (s'.xcs (s.conns c').xc).leaving = (s.xcs (s.conns c').xc).leaving := by
    intro c' hc'
    have hne : c' ≠ c := by
      rintro rfl
      simp [hc'] at hmade
    have hxmade := h.made c' hc'
    rw [hconns, hxcs, Function.update_of_ne hne]
    by_cases hx : (s.conns c').xc = x
    · rw [hx] at hxmade ⊢
      simp [hxc.1, hxc.2 hxmade]
    · simp [hx, hxmade]
  have hnew : ∀ c', (s'.conns c').made = true → (s.conns c').made = true ∨
      c' = c ∧ s'.conns c' = .create x := by
    intro c' hc'
    by_cases hc : c' = c
    · subst hc
      exact .inr ⟨rfl, by simp [hconns]⟩
    · rw [hconns, Function.update_of_ne hc] at hc'
      exact .inl hc'
  refine ⟨howns, fun c' hc' ↦ ?_, fun c' hc' ↦ ?_, fun c' hc' hno ↦ ?_, fun c' hc' ↦ ?_,
    fun c' hc' ↦ ?_, fun x' hx' ↦ ?_, hlist ▸ h.nodup, hlist ▸ hattempt⟩
  · rcases hnew c' hc' with hc' | ⟨-, hc'⟩
    · rw [(hold c' hc').1]
      exact (hold c' hc').2.1
    · simp [hc', Conn.create, hxcs, hxc.1]
  · by_cases hc : c' = c
    · subst hc
      simp [hconns, Conn.create] at hc'
    · rw [hconns, Function.update_of_ne hc] at hc' ⊢
      exact h.lost c' hc'
  · rcases hnew c' hc' with hc' | ⟨-, hc'⟩
    · rw [(hold c' hc').1] at hno ⊢
      exact h.status c' hc' ((hold c' hc').2.2 ▸ hno)
    · simp [hc', Conn.create]
  · obtain ⟨hmade', hno⟩ := h.queue c' (hqueue ▸ hc')
    rw [(hold c' hmade').1, (hold c' hmade').2.2]
    exact ⟨hmade', hno⟩
  · obtain ⟨hmade', hwhy⟩ := h.target c' (hloop ▸ hc')
    rw [(hold c' hmade').1, (hold c' hmade').2.2]
    exact ⟨hmade', hwhy⟩
  · have hx := h.listed x' (hlist ▸ hx')
    rw [hxcs]
    by_cases hxx : x' = x
    · subst hxx
      simp [hxc.1]
    · simpa [hxx] using hx

theorem Base.stepLoop {s s' : Client} (h : s.Base) (hstep : s.stepLoop = some s') : s'.Base := by
  have howns : s'.Owns := h.owns.step (a := .loop) hstep
  -- No attempt is made while `clearClient` goes through `client.reconn_list`.
  have hnone : s.loop = .clearingReconn → ∀ x, s.reconnect.target ≠ some x :=
    fun hl x hx ↦ (h.attempt x hx).2 hl
  cases loopStep_cases hstep with
  | lostFreed hl _ =>
      exact { h with
        owns := howns
        target := fun _ hc ↦ Option.some.inj hc ▸ h.target _ (by rw [hl]; rfl)
        attempt := fun x hx ↦ ⟨(h.attempt x hx).1, by simp⟩ }
  | lost hl _ =>
      exact { h with
        owns := howns
        target := fun _ hc ↦ Option.some.inj hc ▸ h.target _ (by rw [hl]; rfl)
        attempt := fun x hx ↦ ⟨(h.attempt x hx).1, by simp⟩ }
  | @list c hl hidle =>
      have htarget := h.target c (by rw [hl]; rfl)
      refine { h with
        owns := howns
        target := fun _ hc ↦ Option.some.inj hc ▸ htarget
        attempt := fun x hx ↦ by simp [hidle, ReconnectThread.target] at hx
        listed := fun x hx ↦ ?_
        nodup := ?_ }
      · split at hx
        · exact h.listed x hx
        · rcases List.mem_append.mp hx with hx | hx
          · exact h.listed x hx
          · exact List.mem_singleton.mp hx ▸ h.made c htarget.1
      · dsimp only
        split
        · exact h.nodup
        · rename_i hout
          exact List.nodup_append.mpr ⟨h.nodup, List.nodup_singleton _, by
            rintro a ha b hb rfl
            exact hout (List.mem_singleton.mp hb ▸ ha)⟩
  | @ended c hl =>
      exact h.frame howns (Function.update_eq_self 0 s.xcs).symm rfl
        ⟨rfl, id⟩ ⟨rfl, rfl, fun _ ↦ rfl⟩ (h.lost c) (fun _ ↦ .inl)
        (by simp [EventLoop.target]) (.refl _) (fun x hx ↦ ⟨(h.attempt x hx).1, by simp⟩)
  | clearedReconn hl _ =>
      exact { h with
        owns := howns
        target := by simp [EventLoop.target]
        attempt := fun x hx ↦ absurd hx (hnone hl x) }
  | clearNone hl hlist _ =>
      exact h.frame howns rfl (c := 0) (Function.update_eq_self 0 _).symm ⟨rfl, id⟩
        ⟨rfl, rfl, fun _ ↦ rfl⟩ (h.lost 0) (fun _ ↦ .inl) (by simp [hl, EventLoop.target])
        (hlist ▸ List.sublist_cons_self _ _) fun x hx ↦ absurd hx (hnone hl x)
  | @clearSome _ c _ hl hlist _ =>
      exact h.frame howns rfl rfl ⟨rfl, id⟩ ⟨rfl, rfl, fun _ ↦ rfl⟩ (h.lost c) (fun _ ↦ .inl)
        (by simp [hl, tear, EventLoop.target]) (hlist ▸ List.sublist_cons_self _ _)
        fun x hx ↦ absurd hx (hnone hl x)
  | clearedFree _ _ =>
      exact { h with
        owns := howns
        target := by simp [EventLoop.target]
        attempt := fun x hx ↦ ⟨(h.attempt x hx).1, by simp⟩ }
  | @clearFree c rest hl hlist =>
      exact h.frame howns (Function.update_eq_self 0 s.xcs).symm rfl
        ⟨rfl, id⟩ ⟨rfl, rfl, fun _ ↦ rfl⟩ (h.lost c)
        (fun c' hc' ↦ .inl (by simp [hlist, show c' ∈ rest from hc']))
        (by simp [hl, tear, EventLoop.target]) (.refl _)
        (fun x hx ↦ ⟨(h.attempt x hx).1, by simp [tear, hl]⟩)

theorem Base.step {s s' : Client} (h : s.Base) {a : Action} (hstep : s.step a = some s') :
    s'.Base := by
  have howns := h.owns.step hstep
  cases step_cases hstep with
  | connect hx hmade =>
      exact h.create howns hmade rfl rfl ⟨rfl, by simp [hx]⟩ rfl rfl rfl h.attempt
  | reconnect hlist _ hloop =>
      refine h.frame howns rfl (c := 0) (Function.update_eq_self 0 _).symm ⟨rfl, id⟩
        ⟨rfl, rfl, fun _ ↦ rfl⟩ (h.lost 0) (fun _ ↦ .inl) h.target (.refl _) ?_
      rintro _ ⟨⟩
      exact ⟨hlist, hloop⟩
  | @create x _ hat hmade =>
      have hattempt := h.attempt x (by rw [hat]; rfl)
      refine h.create howns hmade rfl rfl ⟨h.listed x hattempt.1, fun _ ↦ rfl⟩ rfl rfl rfl ?_
      rintro _ ⟨⟩
      exact hattempt
  | abandon =>
      exact { h with
        owns := howns
        attempt := by simp [ReconnectThread.target] }
  | wake =>
      exact h.frame howns rfl (c := 0) (Function.update_eq_self 0 _).symm ⟨rfl, id⟩
        ⟨rfl, rfl, fun _ ↦ rfl⟩ (h.lost 0) (fun _ ↦ .inl) h.target (.refl _) h.attempt
  | attach hat =>
      exact { h with
        owns := howns
        attempt := fun x' hx' ↦ h.attempt x' (by rw [hat]; exact hx') }
  | resumeUp hat _ =>
      exact { h with
        owns := howns
        attempt := fun x' hx' ↦ h.attempt x' (by rw [hat]; exact hx') }
  | resumeDown _ _ =>
      exact h.frame howns rfl (c := 0) (Function.update_eq_self 0 _).symm ⟨rfl, id⟩
        ⟨rfl, rfl, fun _ ↦ rfl⟩ (h.lost 0) (fun _ ↦ .inl) h.target (.refl _)
        (by simp [ReconnectThread.target])
  | @remove x hat =>
      exact { h with
        owns := howns
        listed := fun x' hx' ↦ h.listed x' (List.mem_of_mem_erase hx')
        nodup := h.nodup.erase x
        attempt := by simp [ReconnectThread.target] }
  | establish hready _ =>
      exact h.frame howns rfl rfl ⟨rfl, id⟩ ⟨rfl, rfl, fun _ ↦ rfl⟩ (fun _ ↦ rfl) (fun _ ↦ .inl)
        (by simp [hready.1, EventLoop.target]) (.refl _) h.attempt
  | fail hready hdown =>
      exact { h with
        owns := howns
        target := fun _ hc ↦ Option.some.inj hc ▸ ⟨hready.2.1.1, .inl hdown⟩
        attempt := fun x hx ↦ ⟨(h.attempt x hx).1, by simp⟩ }
  | lose hready hup =>
      refine h.frame howns rfl rfl ⟨rfl, id⟩ ⟨rfl, rfl, fun _ ↦ rfl⟩ (fun _ ↦ hup) (fun _ ↦ .inl)
        ?_ (.refl _) (fun x hx ↦ ⟨(h.attempt x hx).1, by simp⟩)
      rintro _ ⟨⟩
      exact ⟨hready.2.1.1, .inr (.inl (by simp))⟩
  | @deal c rest hloop hlist =>
      have hc := h.queue c (by simp [hlist])
      exact { h with
        owns := howns
        queue := fun c' hc' ↦ h.queue c' (by simp [hlist, show c' ∈ rest from hc'])
        target := fun _ hc' ↦ Option.some.inj hc' ▸ ⟨hc.1, .inr (.inr hc.2)⟩
        attempt := fun x hx ↦ ⟨(h.attempt x hx).1, by simp⟩ }
  | loop _ => exact h.stepLoop hstep
  | freeNone _ _ =>
      exact h.frame howns rfl (c := 0) (Function.update_eq_self 0 _).symm ⟨rfl, by simp⟩
        ⟨rfl, rfl, fun _ ↦ rfl⟩ (h.lost 0) (fun _ ↦ .inl) h.target (.refl _) h.attempt
  | @freeSome x c _ hctx =>
      obtain ⟨hmade, hxc⟩ := h.owns x c hctx
      refine h.frame howns rfl rfl ⟨rfl, by simp⟩ ⟨rfl, rfl, ?_⟩ (h.lost c) ?_ ?_ (.refl _)
        h.attempt
      · simp [hxc]
      · intro c' hc'
        rcases List.mem_append.mp hc' with hc' | hc'
        · exact .inl hc'
        · obtain rfl := List.mem_singleton.mp hc'
          exact .inr ⟨hmade, by simp [hxc]⟩
      · intro c' hc'
        obtain ⟨hmade', hwhy⟩ := h.target c' hc'
        refine ⟨hmade', ?_⟩
        by_cases hcc : c' = c
        · subst hcc
          simpa using hwhy
        · simpa [hcc] using hwhy
  | unlist _ hidle _ =>
      refine h.frame howns rfl (c := 0) (Function.update_eq_self 0 _).symm ⟨rfl, by simp⟩
        ⟨rfl, rfl, fun _ ↦ rfl⟩ (h.lost 0) (fun _ ↦ .inl) h.target List.erase_sublist ?_
      simp [hidle, ReconnectThread.target]
  | release =>
      exact h.frame howns rfl (c := 0) (Function.update_eq_self 0 _).symm ⟨rfl, id⟩
        ⟨rfl, rfl, fun _ ↦ rfl⟩ (h.lost 0) (fun _ ↦ .inl) h.target (.refl _) h.attempt
  | stop =>
      exact { h with owns := howns }
  | clear _ _ hidle =>
      exact { h with
        owns := howns
        target := by simp [EventLoop.target]
        attempt := by simp [hidle, ReconnectThread.target] }

/-! ## Freed connections -/

/-- No freed `xRedisContext` is in `client.reconn_list`. -/
def Unlisted (s : Client) : Prop := ∀ x ∈ s.reconnList, (s.xcs x).freed = false

/-- `xRedisConnect` has returned the `xc`, and `xRedisFree` has not begun. -/
def Present (s : Client) (x : ℕ) : Prop :=
  (s.xcs x).freed = false ∧ (s.xcs x).connecting = false ∧ (s.xcs x).leaving = .no

instance (s : Client) : DecidablePred s.Present :=
  fun _ ↦ inferInstanceAs (Decidable (_ ∧ _ ∧ _))

/-- The event loop is not about to put the `xc` into `client.reconn_list`, unless
it will see the mark of `xRedisFree` on the context. -/
def FreeClear (s : Client) (x : ℕ) : EventLoop → Prop
  | .losing c => (s.conns c).xc = x → (s.xcs x).ctx = some c
  | .listing c => (s.conns c).xc ≠ x
  | _ => True

instance (s : Client) (x : ℕ) : DecidablePred (s.FreeClear x)
  | .losing _ => inferInstanceAs (Decidable (_ → _))
  | .listing _ => inferInstanceAs (Decidable (_ ≠ _))
  | .idle | .ending _ | .clearingReconn | .clearingFree | .quit => .isTrue trivial

/-- The condition on the steps that lead to an insertion.  A connection is lost
only while its `xc` is in use, or after `xRedisFree` marked the context; and
`xRedisFree` begins only where `FreeClear` holds. -/
def Undisturbed (s : Client) : Action → Prop
  | .lose c => (s.conns c).status = freedContext ∨ s.Present (s.conns c).xc
  | .free x => s.FreeClear x s.loop
  | _ => True

instance (s : Client) : DecidablePred s.Undisturbed
  | .lose _ => inferInstanceAs (Decidable (_ ∨ _))
  | .free x => inferInstanceAs (Decidable (s.FreeClear x s.loop))
  | .connect _ _ | .wake _ | .reconnect _ | .create _ | .abandon | .attach | .resume | .remove
  | .establish _ | .fail _ | .deal | .loop | .unlist _ | .release _ | .stop | .clear =>
      .isTrue trivial

/-- What the event loop has still to do in `disconnectedCallback` is harmless. -/
def Harmless (s : Client) : EventLoop → Prop
  | .losing c => (s.conns c).status = freedContext ∨ s.Present (s.conns c).xc
  | .listing c => s.Present (s.conns c).xc
  | _ => True

structure Clean (s : Client) : Prop where
  base : s.Base
  listed : ∀ x ∈ s.reconnList, (s.xcs x).freed = false ∧ (s.xcs x).connecting = false ∧
    (s.xcs x).leaving ≠ .unlisted
  loop : s.Harmless s.loop

theorem Harmless.congr {s s' : Client} {l : EventLoop} (h : s.Harmless l)
    (hconns : ∀ c, l.target = some c → (s'.conns c).xc = (s.conns c).xc ∧
      (s'.conns c).status = (s.conns c).status)
    (hxcs : ∀ c, l.target = some c → s.Present (s.conns c).xc → s'.Present (s.conns c).xc) :
    s'.Harmless l := by
  cases l with
  | losing c =>
      obtain ⟨hxc, hstatus⟩ := hconns c rfl
      simp only [Harmless, hxc, hstatus]
      exact Or.imp_right (hxcs c rfl) h
  | listing c =>
      simp only [Harmless, (hconns c rfl).1]
      exact hxcs c rfl h
  | _ => trivial

/-- A step that changes one `xc` and one context where neither counts. -/
theorem Clean.frame {s s' : Client} (h : s.Clean) (hbase : s'.Base) {x c : ℕ} {xc : XContext}
    {conn : Conn} (hxcs : s'.xcs = Function.update s.xcs x xc)
    (hconns : s'.conns = Function.update s.conns c conn)
    (hxc : xc.freed = (s.xcs x).freed ∧ xc.connecting = (s.xcs x).connecting ∧
      xc.leaving = (s.xcs x).leaving)
    (hconn : conn.xc = (s.conns c).xc ∧ conn.status = (s.conns c).status)
    (hlist : ∀ x ∈ s'.reconnList, x ∈ s.reconnList)
    (hloop : s'.loop = s.loop ∨ s'.Harmless s'.loop) : s'.Clean := by
  have hx : ∀ x', (s'.xcs x').freed = (s.xcs x').freed ∧
      (s'.xcs x').connecting = (s.xcs x').connecting ∧
      (s'.xcs x').leaving = (s.xcs x').leaving := by
    intro x'
    rw [hxcs]
    exact update_kept (fun a b : XContext ↦ b.freed = a.freed ∧ b.connecting = a.connecting ∧
      b.leaving = a.leaving) (fun _ ↦ ⟨rfl, rfl, rfl⟩) hxc x'
  refine ⟨hbase, fun x' hx' ↦ ?_, ?_⟩
  · rw [(hx x').1, (hx x').2.1, (hx x').2.2]
    exact h.listed x' (hlist x' hx')
  · rcases hloop with hloop | hloop
    · rw [hloop]
      refine h.loop.congr (fun c' _ ↦ ?_) fun c' _ hpresent ↦ ?_
      · rw [hconns]
        exact update_kept (fun a b : Conn ↦ b.xc = a.xc ∧ b.status = a.status) (fun _ ↦ ⟨rfl, rfl⟩)
          hconn c'
      · unfold Present
        rw [(hx _).1, (hx _).2.1, (hx _).2.2]
        exact hpresent
    · exact hloop

/-- An `xc` that was freed by `clearClient` was in the list once. -/
theorem Clean.clear {s s' : Client} (h : s.Clean) (hbase : s'.Base) {x : ℕ} {rest : List ℕ}
    (hlist : s.reconnList = x :: rest) (hrest : s'.reconnList = rest)
    (hxcs : s'.xcs = Function.update s.xcs x { s.xcs x with ctx := none, freed := true })
    (hl : s'.loop = .clearingReconn) : s'.Clean := by
  have hnodup := h.base.nodup
  rw [hlist, List.nodup_cons] at hnodup
  refine ⟨hbase, fun x' hx' ↦ ?_, by rw [hl]; trivial⟩
  rw [hrest] at hx'
  have hne : x' ≠ x := fun hxx ↦ hnodup.1 (hxx ▸ hx')
  rw [hxcs, Function.update_of_ne hne]
  exact h.listed x' (by simp [hlist, hx'])

theorem Clean.stepLoop {s s' : Client} (h : s.Clean) (hstep : s.stepLoop = some s') :
    s'.Clean := by
  have hbase : s'.Base := h.base.step (a := .loop) hstep
  have hself : ∀ c, s.conns = Function.update s.conns c (s.conns c) :=
    fun c ↦ (Function.update_eq_self c s.conns).symm
  have hsame : ∀ x, s.xcs = Function.update s.xcs x (s.xcs x) :=
    fun x ↦ (Function.update_eq_self x s.xcs).symm
  have hloop := h.loop
  cases loopStep_cases hstep with
  | lostFreed _ _ =>
      exact h.frame hbase (hsame 0) (hself 0) ⟨rfl, rfl, rfl⟩ ⟨rfl, rfl⟩ (fun _ ↦ id)
        (.inr trivial)
  | lost hl hstatus =>
      rw [hl] at hloop
      exact h.frame hbase (hsame 0) (hself 0) ⟨rfl, rfl, rfl⟩ ⟨rfl, rfl⟩ (fun _ ↦ id)
        (.inr (Or.resolve_left hloop hstatus))
  | list hl _ =>
      rw [hl] at hloop
      refine ⟨hbase, fun x hx ↦ ?_, trivial⟩
      simp only at hx
      split at hx
      · exact h.listed x hx
      · rcases List.mem_append.mp hx with hx | hx
        · exact h.listed x hx
        · obtain rfl := List.mem_singleton.mp hx
          obtain ⟨hfreed, hconnecting, hleaving⟩ := hloop
          exact ⟨hfreed, hconnecting, by simp [hleaving]⟩
  | ended _ =>
      exact h.frame hbase (hsame 0) rfl ⟨rfl, rfl, rfl⟩ ⟨rfl, rfl⟩ (fun _ ↦ id) (.inr trivial)
  | clearedReconn _ _ =>
      exact h.frame hbase (hsame 0) (hself 0) ⟨rfl, rfl, rfl⟩ ⟨rfl, rfl⟩ (fun _ ↦ id)
        (.inr trivial)
  | clearNone hl hlist _ => exact h.clear hbase hlist rfl rfl hl
  | clearSome hl hlist _ => exact h.clear hbase hlist rfl rfl hl
  | clearedFree _ _ =>
      exact h.frame hbase (hsame 0) (hself 0) ⟨rfl, rfl, rfl⟩ ⟨rfl, rfl⟩ (fun _ ↦ id)
        (.inr trivial)
  | clearFree _ _ =>
      exact h.frame hbase (hsame 0) rfl ⟨rfl, rfl, rfl⟩ ⟨rfl, rfl⟩ (fun _ ↦ id) (.inl rfl)

/-- `xRedisFree` begins. -/
theorem Clean.free {s s' : Client} (h : s.Clean) {x : ℕ} (hclear : s.FreeClear x s.loop)
    (hstep : s.free x = some s') : s'.Clean := by
  have hbase : s'.Base := h.base.step (a := .free x) hstep
  unfold Client.free at hstep
  rw [Option.ite_none_right_eq_some] at hstep
  obtain ⟨⟨_, _, _, hno, _⟩, hstep⟩ := hstep
  have hstep' : s'.loop = s.loop ∧ s'.reconnList = s.reconnList ∧
      s'.xcs = Function.update s.xcs x { s.xcs x with leaving := .queued } ∧
      ∀ c, (s'.conns c).xc = (s.conns c).xc ∧
        ((s.conns c).xc ≠ x → (s'.conns c).status = (s.conns c).status) ∧
        ((s.xcs x).ctx = some c → (s'.conns c).status = freedContext) := by
    split at hstep <;> rename_i hctx <;> obtain rfl := Option.some.inj hstep
    · exact ⟨rfl, rfl, rfl, fun c ↦ ⟨rfl, fun _ ↦ rfl, fun hc ↦ by simp [hctx] at hc⟩⟩
    · rename_i c
      obtain ⟨hmade, hxc⟩ := h.base.owns x c hctx
      have hstatus : (s.conns c).status = 0 := h.base.status c hmade (by rw [hxc, hno])
      refine ⟨rfl, rfl, rfl, fun c' ↦ ?_⟩
      by_cases hc : c' = c
      · subst hc
        simp [hxc, hstatus]
      · refine ⟨by simp [hc], fun _ ↦ by simp [hc], fun hc' ↦ ?_⟩
        exact absurd (Option.some.inj (hctx.symm.trans hc')).symm hc
  obtain ⟨hloop, hlist, hxcs, hconns⟩ := hstep'
  have hother : ∀ x', x' ≠ x → s'.xcs x' = s.xcs x' := fun x' hx ↦ by
    rw [hxcs, Function.update_of_ne hx]
  refine ⟨hbase, fun x' hx' ↦ ?_, ?_⟩
  · have hl := h.listed x' (hlist ▸ hx')
    by_cases hx : x' = x
    · subst hx
      simpa [hxcs] using ⟨hl.1, hl.2.1⟩
    · rwa [hother x' hx]
  · have hharmless := h.loop
    rw [hloop]
    cases hl : s.loop with
    | losing c =>
        rw [hl] at hclear hharmless
        obtain ⟨hxc, hsame, hmark⟩ := hconns c
        by_cases hx : (s.conns c).xc = x
        · exact .inl (hmark (hclear hx))
        · simp only [Harmless, hxc, hsame hx, Present, hother _ hx]
          exact hharmless
    | listing c =>
        rw [hl] at hclear hharmless
        simp only [Harmless, (hconns c).1, Present, hother _ hclear]
        exact hharmless
    | _ => trivial

theorem Clean.step {s s' : Client} (h : s.Clean) {a : Action} (hguard : s.Undisturbed a)
    (hstep : s.step a = some s') : s'.Clean := by
  have hbase := h.base.step hstep
  have hself : ∀ c, s.conns = Function.update s.conns c (s.conns c) :=
    fun c ↦ (Function.update_eq_self c s.conns).symm
  have hsame : ∀ x, s.xcs = Function.update s.xcs x (s.xcs x) :=
    fun x ↦ (Function.update_eq_self x s.xcs).symm
  -- A context that the event loop has hold of was made, and so was its `xc`.
  have htarget : ∀ c, s.loop.target = some c → (s.conns c).made = true ∧
      (s.xcs (s.conns c).xc).made = true := fun c hc ↦
    ⟨(h.base.target c hc).1, h.base.made c (h.base.target c hc).1⟩
  cases step_cases hstep with
  | @connect x c hx hc =>
      refine ⟨hbase, fun x' hx' ↦ ?_, h.loop.congr (fun c' hc' ↦ ?_) fun c' hc' hpresent ↦ ?_⟩
      · have hne : x' ≠ x := by
          rintro rfl
          simp [h.base.listed x' hx'] at hx
        simpa [hne] using h.listed x' hx'
      · have hne : c' ≠ c := by
          rintro rfl
          simp [(htarget c' hc').1] at hc
        simp [hne]
      · have hne : (s.conns c').xc ≠ x := by
          intro hxx
          simp [← hxx, (htarget c' hc').2] at hx
        simpa [Present, hne] using hpresent
  | reconnect =>
      exact h.frame hbase rfl (hself 0) ⟨rfl, rfl, rfl⟩ ⟨rfl, rfl⟩ (fun _ ↦ id) (.inl rfl)
  | abandon =>
      exact ⟨hbase, h.listed, h.loop⟩
  | @create x c _ hc =>
      have hkeep : ∀ x', (Function.update s.xcs x { s.xcs x with ctx := some c } x').freed =
          (s.xcs x').freed ∧
          (Function.update s.xcs x { s.xcs x with ctx := some c } x').connecting =
            (s.xcs x').connecting ∧
          (Function.update s.xcs x { s.xcs x with ctx := some c } x').leaving =
            (s.xcs x').leaving :=
        update_kept (fun a b : XContext ↦ b.freed = a.freed ∧ b.connecting = a.connecting ∧
          b.leaving = a.leaving) (fun _ ↦ ⟨rfl, rfl, rfl⟩) ⟨rfl, rfl, rfl⟩
      refine ⟨hbase, fun x' hx' ↦ ?_, h.loop.congr (fun c' hc' ↦ ?_) fun c' hc' hpresent ↦ ?_⟩
      · simpa [hkeep] using h.listed x' hx'
      · have hne : c' ≠ c := by
          rintro rfl
          simp [(htarget c' hc').1] at hc
        simp [hne]
      · simpa [Present, hkeep] using hpresent
  | @wake x hwaits _ =>
      refine ⟨hbase, fun x' hx' ↦ ?_, h.loop.congr (fun _ _ ↦ ⟨rfl, rfl⟩) fun c' _ hpresent ↦ ?_⟩
      · have hne : x' ≠ x := by
          rintro rfl
          simp [(h.listed x' hx').2.1] at hwaits
        simpa [hne] using h.listed x' hx'
      · have hne : (s.conns c').xc ≠ x := by
          rintro rfl
          simp [hpresent.2.1] at hwaits
        simpa [Present, hne] using hpresent
  | attach =>
      exact ⟨hbase, h.listed, h.loop⟩
  | resumeUp _ _ =>
      exact ⟨hbase, h.listed, h.loop⟩
  | resumeDown _ _ =>
      exact h.frame hbase rfl (hself 0) ⟨rfl, rfl, rfl⟩ ⟨rfl, rfl⟩ (fun _ ↦ id) (.inl rfl)
  | remove =>
      exact ⟨hbase, fun x hx ↦ h.listed x (List.mem_of_mem_erase hx), h.loop⟩
  | establish =>
      exact h.frame hbase rfl rfl ⟨rfl, rfl, rfl⟩ ⟨rfl, rfl⟩ (fun _ ↦ id) (.inl rfl)
  | fail =>
      exact ⟨hbase, h.listed, trivial⟩
  | @lose c _ _ =>
      refine h.frame hbase rfl rfl ⟨rfl, rfl, rfl⟩ ⟨rfl, rfl⟩ (fun _ ↦ id) (.inr ?_)
      have hpresent : (s.conns c).status = freedContext ∨ s.Present (s.conns c).xc := hguard
      simpa [Harmless, Present] using hpresent
  | deal =>
      exact ⟨hbase, h.listed, trivial⟩
  | loop _ => exact h.stepLoop hstep
  | freeNone _ _ => exact h.free hguard hstep
  | freeSome _ _ => exact h.free hguard hstep
  | @unlist x hqueued _ _ =>
      refine ⟨hbase, fun x' hx' ↦ ?_, h.loop.congr (fun _ _ ↦ ⟨rfl, rfl⟩) fun c _ hpresent ↦ ?_⟩
      · obtain ⟨hne, hx'⟩ := h.base.nodup.mem_erase_iff.mp hx'
        simpa [hne] using h.listed x' hx'
      · have hne : (s.conns c).xc ≠ x := by
          rintro rfl
          simp [hpresent.2.2] at hqueued
        simpa [Present, hne] using hpresent
  | @release x hunlisted _ =>
      refine ⟨hbase, fun x' hx' ↦ ?_, h.loop.congr (fun _ _ ↦ ⟨rfl, rfl⟩) fun c _ hpresent ↦ ?_⟩
      · have hne : x' ≠ x := by
          rintro rfl
          exact (h.listed x' hx').2.2 hunlisted
        simpa [hne] using h.listed x' hx'
      · have hne : (s.conns c).xc ≠ x := by
          rintro rfl
          simp [hpresent.2.2] at hunlisted
        simpa [Present, hne] using hpresent
  | stop =>
      exact ⟨hbase, h.listed, h.loop⟩
  | clear =>
      exact ⟨hbase, h.listed, trivial⟩

theorem fresh_clean : fresh.Clean := by
  refine ⟨fresh_base, ?_, trivial⟩
  simp [fresh]

/-- No freed `xc` is in `client.reconn_list`, in every run in which connections
are lost and freed undisturbed. -/
theorem undisturbed_unlisted {s : Client} (h : machine.Reach Undisturbed s) : s.Unlisted := by
  have hclean : s.Clean := by
    refine h.invariant ?_ ?_
    · rintro s rfl
      exact fresh_clean
    · intro s a s' hs hguard hstep
      exact hs.step hguard hstep
  exact fun x hx ↦ (hclean.listed x hx).1

/-- A lost connection is listed, and its `xc` is freed after that. -/
theorem undisturbed_unlisted_free :
    ∃ s, machine.Reach Undisturbed s ∧ (s.xcs 0).freed = true ∧ s.Unlisted := by
  obtain ⟨s, hrun, hfreed⟩ := machine.run_spec fresh
    [.connect 0 0, .establish 0, .wake 0, .lose 0, .loop, .loop, .loop, .free 0, .unlist 0,
      .release 0] (fun s ↦ decide ((s.xcs 0).freed = true)) (by decide)
  have hreach : machine.Reach Undisturbed s := (Machine.Reach.start rfl).run (by decide) hrun
  exact ⟨s, hreach, of_decide_eq_true hfreed, undisturbed_unlisted hreach⟩

/-- A connection is lost before its `xRedisConnect` looks at the status: the call
frees the `xc` that the event loop has listed. -/
theorem lost_while_connecting :
    ∃ s, machine.Reachable s ∧ ¬s.Unlisted := by
  obtain ⟨s, hrun, hlisted⟩ := machine.run_spec fresh
    [.connect 0 0, .establish 0, .lose 0, .loop, .loop, .wake 0]
    (fun s ↦ decide (s.reconnList = [0] ∧ (s.xcs 0).freed = true)) (by decide)
  obtain ⟨hlist, hfreed⟩ := of_decide_eq_true hlisted
  refine ⟨s, Machine.Reachable.run (.start rfl) hrun, fun h ↦ ?_⟩
  simpa [hfreed] using h 0 (by simp [hlist])

/-! ## Broken connections -/

/-- `xc->ctx` is connected and not torn down. -/
def Served (s : Client) (x : ℕ) : Prop :=
  ∃ c, (s.xcs x).ctx = some c ∧ (s.conns c).connected = true ∧ (s.conns c).torn = 0

/-- A `disconnectedCallback` has started for the `xc` and not come to its
insertion. -/
def Pending (s : Client) (x : ℕ) : Prop :=
  ∃ c, (s.loop = .losing c ∨ s.loop = .listing c) ∧ (s.conns c).xc = x

/-- Every `xc` that was returned and not passed to `xRedisFree` is served, or
listed once, or about to be listed. -/
def Remembered (s : Client) : Prop :=
  ∀ x, (s.xcs x).made = true → s.Present x →
    s.Served x ∨ s.reconnList.count x = 1 ∨ s.Pending x

/-- The condition on the steps that can serve an `xc` with a context that is not
connected, as long as `xRedisFree` was not called for it. -/
def Prompt (s : Client) : Action → Prop
  | .establish c =>
      (s.xcs (s.conns c).xc).freed = true ∨ (s.xcs (s.conns c).xc).leaving ≠ .no ∨
        ∃ c' ∈ (s.xcs (s.conns c).xc).ctx, c' = c ∨ s.Established c'
  | .reconnect x =>
      (s.xcs x).freed = true ∨ (s.xcs x).leaving ≠ .no ∨ (s.xcs x).connected = false
  | _ => True

instance (s : Client) : DecidablePred s.Prompt
  | .establish _ => inferInstanceAs (Decidable (_ ∨ _ ∨ ∃ c' ∈ _, _ ∨ _))
  | .reconnect _ => inferInstanceAs (Decidable (_ ∨ _ ∨ _))
  | .connect _ _ | .wake _ | .create _ | .abandon | .attach | .resume | .remove | .fail _ | .lose _
  | .deal | .loop | .free _ | .unlist _ | .release _ | .stop | .clear => .isTrue trivial

/-- `xc->ctx` is established. -/
def Held (s : Client) (x : ℕ) : Prop := ∃ c, (s.xcs x).ctx = some c ∧ s.Established c

theorem Held.served {s : Client} {x : ℕ} (h : s.Held x) : s.Served x := by
  obtain ⟨c, hctx, htorn, hconnected, _⟩ := h
  exact ⟨c, hctx, hconnected, htorn⟩

theorem Held.congr {s s' : Client} {x : ℕ} (h : s.Held x)
    (hctx : (s'.xcs x).ctx = (s.xcs x).ctx)
    (hestablished : ∀ c, (s.xcs x).ctx = some c → s.Established c → s'.Established c) :
    s'.Held x := by
  obtain ⟨c, hc, hest⟩ := h
  exact ⟨c, hctx.trans hc, hestablished c hc hest⟩

/-- What is known of an `xc` that was not passed to `xRedisFree`. -/
structure Known (s : Client) (x : ℕ) : Prop where
  connected : (s.xcs x).connected = true → s.Held x
  creating : s.reconnect = .creating x → (s.xcs x).connected = false
  removing : s.reconnect = .removing x → s.Held x ∨ s.Pending x
  returned : (s.xcs x).connecting = false → s.Held x ∨ x ∈ s.reconnList ∨ s.Pending x

structure Minded (s : Client) : Prop where
  base : s.Base
  known : ∀ x, (s.xcs x).made = true → (s.xcs x).freed = false → (s.xcs x).leaving = .no →
    s.Known x

theorem Minded.remembered {s : Client} (h : s.Minded) : s.Remembered := by
  rintro x hmade ⟨hfreed, hconnecting, hno⟩
  rcases (h.known x hmade hfreed hno).returned hconnecting with hheld | hlist | hpending
  · exact .inl hheld.served
  · exact .inr (.inl (List.count_eq_one_of_mem h.base.nodup hlist))
  · exact .inr (.inr hpending)

/-- The steps that leave the `xc`, its context and the event loop's duties to it
alone. -/
theorem Known.congr {s s' : Client} {x : ℕ} (h : s.Known x)
    (hxc : (s'.xcs x).ctx = (s.xcs x).ctx ∧ (s'.xcs x).connected = (s.xcs x).connected ∧
      (s'.xcs x).connecting = (s.xcs x).connecting)
    (hestablished : ∀ c, (s.xcs x).ctx = some c → s.Established c → s'.Established c)
    (hpending : s.Pending x → s'.Pending x)
    (hreconnect : s'.reconnect = s.reconnect ∨
      s'.reconnect ≠ .creating x ∧ s'.reconnect ≠ .removing x)
    (hlist : x ∈ s.reconnList → x ∈ s'.reconnList) : s'.Known x := by
  have hheld : s.Held x → s'.Held x := fun hheld ↦ hheld.congr hxc.1 hestablished
  refine ⟨fun hconnected ↦ hheld (h.connected (hxc.2.1 ▸ hconnected)), fun hcreating ↦ ?_,
    fun hremoving ↦ ?_, fun hconnecting ↦ ?_⟩
  · rcases hreconnect with hsame | ⟨hnone, _⟩
    · exact hxc.2.1.trans (h.creating (hsame.symm.trans hcreating))
    · exact absurd hcreating hnone
  · rcases hreconnect with hsame | ⟨_, hnone⟩
    · exact (h.removing (hsame.symm.trans hremoving)).imp hheld hpending
    · exact absurd hremoving hnone
  · exact (h.returned (hxc.2.2 ▸ hconnecting)).imp hheld (Or.imp hlist hpending)

/-- A context is made for another `xc`. -/
theorem Known.create {s s' : Client} {x y c : ℕ} (h : s.Known x) (hbase : s.Base)
    (hc : (s.conns c).made = false) (hconns : s'.conns = Function.update s.conns c (.create y))
    (hxcs : s'.xcs x = s.xcs x) (hloop : s'.loop = s.loop)
    (hreconnect : s'.reconnect = s.reconnect ∨
      s'.reconnect ≠ .creating x ∧ s'.reconnect ≠ .removing x)
    (hlist : x ∈ s.reconnList → x ∈ s'.reconnList) : s'.Known x := by
  have hold : ∀ c', (s.conns c').made = true → s'.conns c' = s.conns c' := by
    intro c' hmade
    have hne : c' ≠ c := by
      rintro rfl
      simp [hmade] at hc
    rw [hconns, Function.update_of_ne hne]
  refine h.congr (by simp [hxcs]) (fun c' hctx hest ↦ ?_) ?_ hreconnect hlist
  · rw [Established, hold c' (hbase.owns x c' hctx).1]
    exact hest
  · rintro ⟨c', hl, hxc⟩
    have hmade : (s.conns c').made = true := by
      rcases hl with hl | hl <;> exact (hbase.target c' (by rw [hl]; rfl)).1
    exact ⟨c', hloop ▸ hl, by rw [hold c' hmade, hxc]⟩

theorem not_pending {s : Client} (h : ∀ c, s.loop ≠ .losing c ∧ s.loop ≠ .listing c) (x : ℕ) :
    ¬s.Pending x := by
  rintro ⟨c, hl | hl, _⟩
  · exact (h c).1 hl
  · exact (h c).2 hl

/-- A teardown does not concern an `xc` that was not passed to `xRedisFree`. -/
theorem Base.established_tear {s : Client} (h : s.Base) {x c c' : ℕ}
    (hno : (s.xcs x).leaving = .no)
    (hwhy : (s.conns c).connected = false ∨ (s.conns c).lost = true ∨
      (s.xcs (s.conns c).xc).leaving ≠ .no)
    (hctx : (s.xcs x).ctx = some c') (hest : s.Established c') :
    (s.tear c).Established c' := by
  have hne : c' ≠ c := by
    rintro rfl
    obtain ⟨-, hup, hkept⟩ := hest
    rcases hwhy with hdown | hlost | hleaving
    · simp [hdown] at hup
    · simp [hlost] at hkept
    · exact hleaving ((h.owns x c' hctx).2 ▸ hno)
  simpa [Established, tear, hne] using hest

theorem Minded.stepLoop {s s' : Client} (h : s.Minded) (hstep : s.stepLoop = some s') :
    s'.Minded := by
  refine ⟨h.base.step (a := .loop) hstep, ?_⟩
  intro x hmade hfreed hno
  cases loopStep_cases hstep with
  | @lostFreed c hl hstatus =>
      refine (h.known x hmade hfreed hno).congr ⟨rfl, rfl, rfl⟩ (fun _ _ ↦ id) ?_ (.inl rfl) id
      rintro ⟨c', hc', hxc⟩
      obtain rfl : c = c' := by simpa [hl] using hc'
      -- The mark is on contexts of an `xc` that was passed to `xRedisFree` only.
      have hzero := h.base.status c (h.base.target c (by rw [hl]; rfl)).1 (by rw [hxc, hno])
      exact absurd (hzero.symm.trans hstatus) (by decide)
  | @lost c hl _ =>
      refine (h.known x hmade hfreed hno).congr ⟨rfl, rfl, rfl⟩ (fun _ _ ↦ id) ?_ (.inl rfl) id
      rintro ⟨c', hc', hxc⟩
      obtain rfl : c = c' := by simpa [hl] using hc'
      exact ⟨c, .inr rfl, hxc⟩
  | @list c hl hidle =>
      have hknown := h.known x hmade hfreed hno
      refine ⟨hknown.connected, hknown.creating, fun hremoving ↦ by simp [hidle] at hremoving,
        fun hconnecting ↦ ?_⟩
      rcases hknown.returned hconnecting with hheld | hlist | ⟨c', hc', hxc⟩
      · exact .inl hheld
      · refine .inr (.inl ?_)
        dsimp only
        split
        · exact hlist
        · exact List.mem_append_left _ hlist
      · obtain rfl : c = c' := by simpa [hl] using hc'
        refine .inr (.inl ?_)
        dsimp only
        split
        · rename_i hmem
          exact hxc ▸ hmem
        · simp [hxc]
  | @ended c hl =>
      exact (h.known x hmade hfreed hno).congr ⟨rfl, rfl, rfl⟩
        (fun c' ↦ h.base.established_tear hno (h.base.target c (by rw [hl]; rfl)).2)
        (fun hpending ↦ absurd hpending (not_pending (by simp [hl]) x)) (.inl rfl) id
  | clearedReconn hl _ =>
      exact (h.known x hmade hfreed hno).congr ⟨rfl, rfl, rfl⟩ (fun _ _ ↦ id)
        (fun hpending ↦ absurd hpending (not_pending (by simp [hl]) x)) (.inl rfl) id
  | @clearNone y rest hl hlist _ =>
      have hne : x ≠ y := by
        rintro rfl
        simp at hfreed
      simp only [xcs_setXc, Function.update_of_ne hne] at hmade hfreed hno
      exact (h.known x hmade hfreed hno).congr (by simp [hne]) (fun _ _ ↦ id)
        (fun hpending ↦ absurd hpending (not_pending (by simp [hl]) x)) (.inl rfl)
        fun hx ↦ (List.mem_cons.mp (hlist ▸ hx)).resolve_left hne
  | @clearSome y c rest hl hlist hctx =>
      have hne : x ≠ y := by
        rintro rfl
        simp at hfreed
      simp only [xcs_setXc, Function.update_of_ne hne, tear, xcs_setConn] at hmade hfreed hno
      refine (h.known x hmade hfreed hno).congr (by simp [hne, tear]) (fun c' hc' hest ↦ ?_)
        (fun hpending ↦ absurd hpending (not_pending (by simp [hl]) x)) (.inl rfl)
        fun hx ↦ (List.mem_cons.mp (hlist ▸ hx)).resolve_left hne
      have hcc : c' ≠ c := by
        rintro rfl
        exact hne ((h.base.owns x c' hc').2.symm.trans (h.base.owns y c' hctx).2)
      simpa [Established, tear, hcc] using hest
  | clearedFree hl _ =>
      exact (h.known x hmade hfreed hno).congr ⟨rfl, rfl, rfl⟩ (fun _ _ ↦ id)
        (fun hpending ↦ absurd hpending (not_pending (by simp [hl]) x)) (.inl rfl) id
  | @clearFree c rest hl hlist =>
      have hleaving := (h.base.queue c (by simp [hlist])).2
      exact (h.known x hmade hfreed hno).congr ⟨rfl, rfl, rfl⟩
        (fun c' ↦ h.base.established_tear hno (.inr (.inr hleaving)))
        (fun hpending ↦ absurd hpending (not_pending (by simp [hl]) x)) (.inl rfl) id

theorem Minded.establish {s s' : Client} (h : s.Minded) {c : ℕ}
    (hprompt : s.Prompt (.establish c)) (hstep : s.establish c = some s') : s'.Minded := by
  refine ⟨h.base.step (a := .establish c) hstep, ?_⟩
  simp only [Client.establish, Option.ite_none_right_eq_some, Option.some.injEq] at hstep
  obtain ⟨⟨⟨hidle, ⟨_, htorn⟩, hunlocked⟩, hdown⟩, rfl⟩ := hstep
  have hlost : (s.conns c).lost = false := by
    by_contra hlost
    simp [h.base.lost c (by simpa using hlost)] at hdown
  have hall : ∀ c', c' = c ∨ s.Established c' →
      Established ((s.setConn c { s.conns c with connected := true }).setXc (s.conns c).xc
        { s.xcs (s.conns c).xc with connected := true }) c' := by
    intro c' hc'
    by_cases hc : c' = c
    · subst hc
      simp [Established, htorn, hlost]
    · simpa [Established, hc] using hc'.resolve_left hc
  have hsame : ∀ x, s.Held x → Held ((s.setConn c { s.conns c with connected := true }).setXc
      (s.conns c).xc { s.xcs (s.conns c).xc with connected := true }) x := by
    intro x hheld
    refine hheld.congr ?_ fun c' _ hest ↦ hall c' (.inr hest)
    by_cases hx : x = (s.conns c).xc
    · subst hx
      simp
    · simp [hx]
  have hnone : ∀ x, ¬s.Pending x := not_pending (by simp [hidle])
  intro x hmade hfreed hno
  by_cases hx : x = (s.conns c).xc
  · subst hx
    simp only [xcs_setXc, Function.update_self] at hmade hfreed hno
    have hknown := h.known _ hmade hfreed hno
    refine ⟨fun _ ↦ ?_, fun hcreating ↦ ?_, fun hremoving ↦ ?_, fun hconnecting ↦ ?_⟩
    · rcases hprompt with hfreed' | hleaving | ⟨c', hctx, hc'⟩
      · simp [hfreed'] at hfreed
      · exact absurd hno hleaving
      · exact ⟨c', by simpa using hctx, hall c' hc'⟩
    · exact absurd (by rw [show s.reconnect = _ from hcreating]; rfl) hunlocked
    · exact (hknown.removing hremoving).imp (hsame _) fun hp ↦ absurd hp (hnone _)
    · exact (hknown.returned (by simpa using hconnecting)).imp (hsame _)
        (Or.imp_right fun hp ↦ absurd hp (hnone _))
  · simp only [xcs_setXc, xcs_setConn, Function.update_of_ne hx] at hmade hfreed hno
    exact (h.known x hmade hfreed hno).congr (by simp [hx]) (fun c' _ hest ↦ hall c' (.inr hest))
      (fun hp ↦ absurd hp (hnone x)) (.inl rfl) id

theorem Minded.step {s s' : Client} (h : s.Minded) {a : Action} (hprompt : s.Prompt a)
    (hstep : s.step a = some s') : s'.Minded := by
  have hbase := h.base.step hstep
  cases step_cases hstep with
  | @connect y c hy hc =>
      refine ⟨hbase, fun x hmade hfreed hno ↦ ?_⟩
      by_cases hx : x = y
      · subst hx
        refine ⟨by simp, fun _ ↦ by simp, fun hremoving ↦ ?_, by simp⟩
        have hlisted := (h.base.attempt x (show s.reconnect.target = some x by
          rw [show s.reconnect = .removing x from hremoving]; rfl)).1
        simp [h.base.listed x hlisted] at hy
      · simp only [xcs_setXc, xcs_setConn, Function.update_of_ne hx] at hmade hfreed hno
        exact (h.known x hmade hfreed hno).create h.base hc rfl (by simp [hx]) rfl (.inl rfl) id
  | @reconnect y hlist _ _ =>
      refine ⟨hbase, fun x hmade hfreed hno ↦ ?_⟩
      by_cases hx : x = y
      · subst hx
        simp only [xcs_setXc, Function.update_self] at hmade hfreed hno
        have hdown : (s.xcs x).connected = false := by
          rcases hprompt with hfreed' | hleaving | hdown
          · simp [hfreed'] at hfreed
          · exact absurd hno hleaving
          · exact hdown
        exact ⟨by simp [hdown], fun _ ↦ by simp [hdown], by simp, fun _ ↦ .inr (.inl hlist)⟩
      · simp only [xcs_setXc, Function.update_of_ne hx] at hmade hfreed hno
        exact (h.known x hmade hfreed hno).congr (by simp [hx]) (fun _ _ ↦ id) id
          (.inr (by simp [Ne.symm hx])) id
  | @create y c hat hc =>
      refine ⟨hbase, fun x hmade hfreed hno ↦ ?_⟩
      by_cases hx : x = y
      · subst hx
        simp only [xcs_setXc, Function.update_self] at hmade hfreed hno
        have hdown := (h.known x hmade hfreed hno).creating hat
        refine ⟨by simp [hdown], by simp, by simp, fun _ ↦ .inr (.inl ?_)⟩
        exact (h.base.attempt x (by rw [hat]; rfl)).1
      · simp only [xcs_setXc, xcs_setConn, Function.update_of_ne hx] at hmade hfreed hno
        exact (h.known x hmade hfreed hno).create h.base hc rfl (by simp [hx]) rfl
          (.inr (by simp)) id
  | abandon =>
      exact ⟨hbase, fun x hmade hfreed hno ↦ (h.known x hmade hfreed hno).congr ⟨rfl, rfl, rfl⟩
        (fun _ _ ↦ id) id (.inr (by simp)) id⟩
  | @wake y _ _ =>
      refine ⟨hbase, fun x hmade hfreed hno ↦ ?_⟩
      by_cases hx : x = y
      · subst hx
        simp only [xcs_setXc, Function.update_self, Bool.or_eq_false_iff] at hmade hfreed hno
        have hknown := h.known x hmade hfreed.1 hno
        have hheld : s.Held x := hknown.connected (by simpa using hfreed.2)
        refine ⟨fun _ ↦ ?_, fun hcreating ↦ by simpa using hknown.creating hcreating,
          fun hremoving ↦ (hknown.removing hremoving).imp_left fun _ ↦ ?_, fun _ ↦ .inl ?_⟩
        all_goals exact hheld.congr (by simp) fun _ _ ↦ id
      · simp only [xcs_setXc, Function.update_of_ne hx] at hmade hfreed hno
        exact (h.known x hmade hfreed hno).congr (by simp [hx]) (fun _ _ ↦ id) id (.inl rfl) id
  | attach =>
      exact ⟨hbase, fun x hmade hfreed hno ↦ (h.known x hmade hfreed hno).congr ⟨rfl, rfl, rfl⟩
        (fun _ _ ↦ id) id (.inr (by simp)) id⟩
  | @resumeUp y _ _ hup =>
      refine ⟨hbase, fun x hmade hfreed hno ↦ ?_⟩
      have hknown := h.known x hmade hfreed hno
      refine ⟨hknown.connected, by simp, fun hremoving ↦ ?_, hknown.returned⟩
      obtain rfl : y = x := by simpa using hremoving
      exact .inl (hknown.connected hup)
  | @resumeDown y _ hat hdown =>
      refine ⟨hbase, fun x hmade hfreed hno ↦ ?_⟩
      by_cases hx : x = y
      · subst hx
        refine ⟨fun hconnected ↦ absurd (by simpa using hconnected) hdown, by simp, by simp,
          fun _ ↦ .inr (.inl ?_)⟩
        exact (h.base.attempt x (by rw [hat]; rfl)).1
      · simp only [xcs_setXc, Function.update_of_ne hx] at hmade hfreed hno
        exact (h.known x hmade hfreed hno).congr (by simp [hx]) (fun _ _ ↦ id) id
          (.inr (by simp)) id
  | @remove y hat =>
      refine ⟨hbase, fun x hmade hfreed hno ↦ ?_⟩
      have hknown := h.known x hmade hfreed hno
      refine ⟨hknown.connected, by simp, by simp, fun hconnecting ↦ ?_⟩
      by_cases hx : x = y
      · exact (hknown.removing (hx ▸ hat)).imp_right .inr
      · exact (hknown.returned hconnecting).imp_right
          (Or.imp_left fun hlist ↦ (List.mem_erase_of_ne hx).mpr hlist)
  | establish _ _ => exact h.establish hprompt hstep
  | fail hready _ =>
      exact ⟨hbase, fun x hmade hfreed hno ↦ (h.known x hmade hfreed hno).congr ⟨rfl, rfl, rfl⟩
        (fun _ _ ↦ id) (fun hp ↦ absurd hp (not_pending (by simp [hready.1]) x)) (.inl rfl) id⟩
  | @lose c hready _ =>
      refine ⟨hbase, fun x hmade hfreed hno ↦ ?_⟩
      by_cases hx : x = (s.conns c).xc
      · subst hx
        exact ⟨by simp, by simp, fun _ ↦ .inr ⟨c, .inl rfl, by simp⟩,
          fun _ ↦ .inr (.inr ⟨c, .inl rfl, by simp⟩)⟩
      · simp only [xcs_setXc, xcs_setConn, Function.update_of_ne hx] at hmade hfreed hno
        refine (h.known x hmade hfreed hno).congr (by simp [hx]) (fun c' hctx hest ↦ ?_)
          (fun hp ↦ absurd hp (not_pending (by simp [hready.1]) x)) (.inl rfl) id
        have hne : c' ≠ c := by
          rintro rfl
          exact hx (h.base.owns x c' hctx).2.symm
        simpa [Established, hne] using hest
  | deal hidle _ =>
      exact ⟨hbase, fun x hmade hfreed hno ↦ (h.known x hmade hfreed hno).congr ⟨rfl, rfl, rfl⟩
        (fun _ _ ↦ id) (fun hp ↦ absurd hp (not_pending (by simp [hidle]) x)) (.inl rfl) id⟩
  | loop _ => exact h.stepLoop hstep
  | @freeNone y _ _ =>
      refine ⟨hbase, fun x hmade hfreed hno ↦ ?_⟩
      have hne : x ≠ y := by
        rintro rfl
        simp at hno
      simp only [xcs_setXc, Function.update_of_ne hne] at hmade hfreed hno
      exact (h.known x hmade hfreed hno).congr (by simp [hne]) (fun _ _ ↦ id) id (.inl rfl) id
  | @freeSome y c _ _ =>
      refine ⟨hbase, fun x hmade hfreed hno ↦ ?_⟩
      have hne : x ≠ y := by
        rintro rfl
        simp at hno
      simp only [xcs_setXc, xcs_setConn, Function.update_of_ne hne] at hmade hfreed hno
      refine (h.known x hmade hfreed hno).congr (by simp [hne]) (fun c' _ hest ↦ ?_) ?_ (.inl rfl)
        id
      · by_cases hc : c' = c
        · subst hc
          simpa [Established] using hest
        · simpa [Established, hc] using hest
      · rintro ⟨c', hl, hxc⟩
        refine ⟨c', hl, ?_⟩
        by_cases hc : c' = c
        · subst hc
          simpa using hxc
        · simpa [hc] using hxc
  | @unlist y _ _ _ =>
      refine ⟨hbase, fun x hmade hfreed hno ↦ ?_⟩
      have hne : x ≠ y := by
        rintro rfl
        simp at hno
      simp only [xcs_setXc, Function.update_of_ne hne] at hmade hfreed hno
      exact (h.known x hmade hfreed hno).congr (by simp [hne]) (fun _ _ ↦ id) id (.inl rfl)
        fun hlist ↦ (List.mem_erase_of_ne hne).mpr hlist
  | @release y _ _ =>
      refine ⟨hbase, fun x hmade hfreed hno ↦ ?_⟩
      have hne : x ≠ y := by
        rintro rfl
        simp at hfreed
      simp only [xcs_setXc, Function.update_of_ne hne] at hmade hfreed hno
      exact (h.known x hmade hfreed hno).congr (by simp [hne]) (fun _ _ ↦ id) id (.inl rfl) id
  | stop =>
      exact ⟨hbase, fun x hmade hfreed hno ↦ (h.known x hmade hfreed hno).congr ⟨rfl, rfl, rfl⟩
        (fun _ _ ↦ id) id (.inl rfl) id⟩
  | clear hidle _ _ =>
      exact ⟨hbase, fun x hmade hfreed hno ↦ (h.known x hmade hfreed hno).congr ⟨rfl, rfl, rfl⟩
        (fun _ _ ↦ id) (fun hp ↦ absurd hp (not_pending (by simp [hidle]) x)) (.inl rfl) id⟩

/-- No broken connection is forgotten in a run in which no abandoned connect
completes late. -/
theorem prompt_remembered {s : Client} (h : machine.Reach Prompt s) : s.Remembered := by
  have hminded : s.Minded := by
    refine h.invariant ?_ ?_
    · rintro s rfl
      refine ⟨fresh_base, fun x hmade ↦ ?_⟩
      simp [fresh, XContext.absent] at hmade
    · intro s a s' hs hprompt hstep
      exact hs.step hprompt hstep
  exact hminded.remembered

/-- The new connection breaks while the reconnect thread is about to remove the
`xc` from the list: the callback waits for the list and inserts it again. -/
theorem prompt_remembered_again :
    ∃ s, machine.Reach Prompt s ∧ s.reconnList = [0] ∧ (s.conns 1).lost = true ∧ s.Remembered := by
  obtain ⟨s, hrun, hagain⟩ := machine.run_spec fresh
    [.connect 0 0, .establish 0, .wake 0, .lose 0, .loop, .loop, .loop, .reconnect 0, .create 1,
      .attach, .establish 1, .resume, .lose 1, .loop, .remove, .loop]
    (fun s ↦ decide (s.reconnList = [0] ∧ (s.conns 1).lost = true)) (by decide)
  have hreach : machine.Reach Prompt s := (Machine.Reach.start rfl).run (by decide) hrun
  obtain ⟨hlist, hlost⟩ := of_decide_eq_true hagain
  exact ⟨s, hreach, hlist, hlost, prompt_remembered hreach⟩

/-- The first attempt times out, and its connect completes during the second: the
reconnect thread takes the second for connected and removes the `xc` from the
list.  The second connect fails. -/
theorem late_connect_forgets : ∃ s, machine.Reachable s ∧ ¬s.Remembered := by
  obtain ⟨s, hrun, hlate⟩ := machine.run_spec fresh
    [.connect 0 0, .establish 0, .wake 0, .lose 0, .loop, .loop, .loop, .reconnect 0, .create 1,
      .attach, .resume, .reconnect 0, .create 2, .attach, .establish 1, .resume, .remove, .fail 2,
      .loop]
    (fun s ↦ decide ((s.xcs 0).made = true ∧ s.Present 0 ∧ (s.xcs 0).ctx = some 2 ∧
      (s.conns 2).torn = 1 ∧ s.reconnList = [] ∧ s.loop = .idle)) (by decide)
  obtain ⟨hmade, hpresent, hctx, htorn, hlist, hidle⟩ := of_decide_eq_true hlate
  refine ⟨s, Machine.Reachable.run (.start rfl) hrun, fun h ↦ ?_⟩
  rcases h 0 hmade hpresent with ⟨c, hc, _, hzero⟩ | hcount | hpending
  · obtain rfl := Option.some.inj (hctx.symm.trans hc)
    simp [htorn] at hzero
  · simp [hlist] at hcount
  · exact not_pending (by simp [hidle]) 0 hpending

end Client

end MuxHiredis
