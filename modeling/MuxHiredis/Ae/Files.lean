import Mathlib.Order.BooleanAlgebra.Basic
import Mathlib.Logic.Function.Basic
import Mathlib.Tactic
import MuxHiredis.Lib.Machine
import MuxHiredis.Reader.Basic

/-!
# File events

`aeCreateFileEvent`, `aeDeleteFileEvent` and `aeResizeSetSize` over the calls of
`ae_epoll.c`, and what the kernel watches for the loop.  Descriptors may be opened
and closed at any time.
-/

namespace MuxHiredis

namespace Ae

/-- `AE_READABLE` and `AE_WRITABLE`; `AE_NONE` is `⊥`, and `|`, `&` and `& ~` are
`⊔`, `⊓` and `\`. -/
abbrev Mask := Bool × Bool

def aeReadable : Mask := (true, false)

def aeWritable : Mask := (false, true)

structure FileEvent where
  mask : Mask
  rfileProc : ℕ
  wfileProc : ℕ
  clientData : ℕ

/-! ## The kernel -/

/-- Which descriptors are open, and the events that an epoll instance watches. -/
structure Kernel where
  isOpen : ℕ → Bool
  interest : ℕ → Option Mask

inductive CtlOp where
  | add | mod | del
  deriving DecidableEq, Repr

inductive CtlErr where
  | ebadf | eexist | enoent | refused
  deriving DecidableEq, Repr

def Kernel.watch (k : Kernel) (fd : ℕ) (events : Option Mask) : Kernel :=
  { k with interest := Function.update k.interest fd events }

/-- `epoll_ctl`.  The kernel may refuse to add a descriptor: there is no memory, or
what it stands for cannot be polled. -/
def Kernel.epollCtl (k : Kernel) (op : CtlOp) (fd : ℕ) (events : Mask) (refused : Bool) :
    Option CtlErr × Kernel :=
  if k.isOpen fd = false then (some .ebadf, k)
  else
    match op with
    | .add =>
        if k.interest fd ≠ none then (some .eexist, k)
        else if refused then (some .refused, k)
        else (none, k.watch fd (some events))
    | .mod => if k.interest fd = none then (some .enoent, k) else (none, k.watch fd (some events))
    | .del => if k.interest fd = none then (some .enoent, k) else (none, k.watch fd none)

/-- The number is free again, and nothing is watched. -/
def Kernel.close (k : Kernel) (fd : ℕ) : Kernel :=
  { k.watch fd none with isOpen := Function.update k.isOpen fd false }

/-! ## The loop -/

/-- The part of `aeEventLoop` for descriptors.  `realloc()` moves the events to
another block. -/
structure Files where
  maxfd : ℤ
  setsize : ℕ
  block : ℕ
  events : ℕ → FileEvent
  fired : List (ℕ × Mask)
  kernel : Kernel

namespace Files

variable (s : Files)

def mask (fd : ℕ) : Mask := (s.events fd).mask

def aeApiAddEvent (fd : ℕ) (mask : Mask) (refused : Bool) : Option CtlErr × Kernel :=
  -- If the descriptor was already monitored for some event, it is a MOD operation.
  let op := if s.mask fd = ⊥ then .add else .mod
  s.kernel.epollCtl op fd (mask ⊔ s.mask fd) refused

def aeApiDelEvent (fd : ℕ) (delmask : Mask) : Kernel :=
  let mask := s.mask fd \ delmask
  if mask ≠ ⊥ then (s.kernel.epollCtl .mod fd mask false).2
  else (s.kernel.epollCtl .del fd mask false).2

def aeCreateFileEvent (fd : ℕ) (mask : Mask) (proc clientData : ℕ) (refused : Bool) :
    Status × Files :=
  if s.setsize ≤ fd then (.err, s)
  else
    match s.aeApiAddEvent fd mask refused with
    | (some _, _) => (.err, s)
    | (none, kernel) =>
        let fe := s.events fd
        let fe :=
          { mask := fe.mask ⊔ mask
            rfileProc := if mask.1 then proc else fe.rfileProc
            wfileProc := if mask.2 then proc else fe.wfileProc
            clientData := clientData }
        (.ok, { s with
          events := Function.update s.events fd fe
          maxfd := max s.maxfd fd
          kernel := kernel })

/-- The largest descriptor below `j` that is registered, or -1. -/
def lastBelow : ℕ → ℤ
  | 0 => -1
  | j + 1 => if s.mask j ≠ ⊥ then j else lastBelow j

def aeDeleteFileEvent (fd : ℕ) (mask : Mask) : Files :=
  if s.setsize ≤ fd then s
  else if s.mask fd = ⊥ then s
  else
    let fe := s.events fd
    let s' := { s with
      kernel := s.aeApiDelEvent fd mask
      events := Function.update s.events fd { fe with mask := fe.mask \ mask } }
    -- Update the max fd.
    if fd = s.maxfd ∧ s'.mask fd = ⊥ then { s' with maxfd := s'.lastBelow fd } else s'

def aeGetFileEvents (fd : ℕ) : Mask := if s.setsize ≤ fd then ⊥ else s.mask fd

/-- The new slots are initialised with `AE_NONE`. -/
def aeResizeSetSize (setsize : ℕ) : Status × Files :=
  if setsize = s.setsize then (.ok, s)
  else if setsize ≤ s.maxfd then (.err, s)
  else
    (.ok, { s with
      setsize := setsize
      block := s.block + 1
      fired := s.fired.take setsize
      events := fun fd ↦
        if s.maxfd < fd ∧ fd < setsize then { s.events fd with mask := ⊥ } else s.events fd })

end Files

/-- What a program does with the descriptors and their events. -/
inductive FileOp where
  | create (fd : ℕ) (mask : Mask) (proc clientData : ℕ) (refused : Bool)
  | delete (fd : ℕ) (mask : Mask)
  | resize (setsize : ℕ)
  | opened (fd : ℕ)
  | close (fd : ℕ)

namespace Files

def perform (s : Files) : FileOp → Files
  | .create fd mask proc clientData refused =>
      (s.aeCreateFileEvent fd mask proc clientData refused).2
  | .delete fd mask => s.aeDeleteFileEvent fd mask
  | .resize setsize => (s.aeResizeSetSize setsize).2
  | .opened fd =>
      { s with kernel := { s.kernel with isOpen := Function.update s.kernel.isOpen fd true } }
  | .close fd => { s with kernel := s.kernel.close fd }

/-- `aeCreateEventLoop`, with any values in the memory behind the events. -/
structure Created (s : Files) : Prop where
  maxfd : s.maxfd = -1
  mask : ∀ fd < s.setsize, s.mask fd = ⊥
  interest : ∀ fd, s.kernel.interest fd = none

/-- The mask of a new event is not `AE_NONE`. -/
def Proper : FileOp → Prop
  | .create _ mask _ _ _ => mask ≠ ⊥
  | _ => True

instance : DecidablePred Proper
  | .create _ mask _ _ _ => inferInstanceAs (Decidable (mask ≠ ⊥))
  | .delete _ _ | .resize _ | .opened _ | .close _ => .isTrue trivial

end Files

/-- All that can happen to an event loop and its descriptors. -/
def fileEvents : Machine Files FileOp where
  start := Files.Created
  step s a := some (s.perform a)

namespace Files

/-- `maxfd` is the largest descriptor that is registered, or -1. -/
structure Tracked (s : Files) : Prop where
  range : -1 ≤ s.maxfd ∧ s.maxfd < s.setsize
  largest : ∀ fd < s.setsize, s.mask fd ≠ ⊥ → (fd : ℤ) ≤ s.maxfd
  registered : ∀ fd : ℕ, (fd : ℤ) = s.maxfd → s.mask fd ≠ ⊥

/-- The kernel watches a descriptor for the events of the loop, or not at all. -/
def Watched (s : Files) : Prop :=
  ∀ fd m, s.kernel.interest fd = some m →
    s.kernel.isOpen fd = true ∧ fd < s.setsize ∧ m = s.mask fd ∧ m ≠ ⊥

/-- A descriptor is registered, and the kernel does not watch it. -/
def Stale (s : Files) (fd : ℕ) : Prop :=
  fd < s.setsize ∧ s.mask fd ≠ ⊥ ∧ s.kernel.interest fd = none

instance (s : Files) (fd : ℕ) : Decidable (s.Stale fd) :=
  inferInstanceAs (Decidable (_ ∧ _ ∧ _))

variable {s s' : Files} {fd : ℕ} {mask : Mask}

theorem Created.tracked (h : s.Created) : s.Tracked := by
  refine ⟨⟨h.maxfd.ge, ?_⟩, fun fd hfd hmask ↦ absurd (h.mask fd hfd) hmask, fun fd hfd ↦ ?_⟩
  · rw [h.maxfd]
    omega
  · rw [h.maxfd] at hfd
    omega

theorem Created.watched (h : s.Created) : s.Watched := by
  intro fd m hm
  rw [h.interest fd] at hm
  cases hm

/-! ## Creating -/

/-- What creating an event comes to. -/
inductive CreateResult (s : Files) (fd : ℕ) (mask : Mask) (refused : Bool) :
    Status × Files → Prop
  | failed (h : ¬fd < s.setsize ∨ s.kernel.isOpen fd = false ∨ s.Stale fd ∨
      s.mask fd = ⊥ ∧ refused = true) : CreateResult s fd mask refused (.err, s)
  | created {fe : FileEvent} (hfd : fd < s.setsize) (hopen : s.kernel.isOpen fd = true)
      (hlive : ¬s.Stale fd) (hnew : s.mask fd = ⊥ → refused = false)
      (hfe : fe.mask = s.mask fd ⊔ mask) :
      CreateResult s fd mask refused (.ok, { s with
        events := Function.update s.events fd fe
        maxfd := max s.maxfd fd
        kernel := s.kernel.watch fd (some (mask ⊔ s.mask fd)) })

theorem aeCreateFileEvent_cases (hw : s.Watched) (fd : ℕ) (mask : Mask)
    (proc clientData : ℕ) (refused : Bool) :
    CreateResult s fd mask refused (s.aeCreateFileEvent fd mask proc clientData refused) := by
  unfold aeCreateFileEvent
  by_cases hfd : s.setsize ≤ fd
  · rw [if_pos hfd]
    exact .failed (Or.inl (not_lt.mpr hfd))
  · have hlt : fd < s.setsize := not_le.mp hfd
    rw [if_neg hfd]
    unfold aeApiAddEvent Kernel.epollCtl
    dsimp only
    by_cases hopen : s.kernel.isOpen fd = false
    · rw [if_pos hopen]
      exact .failed (Or.inr (Or.inl hopen))
    · have hopen' : s.kernel.isOpen fd = true := by simpa using hopen
      rw [if_neg hopen]
      by_cases hmask : s.mask fd = ⊥
      · have hnone : s.kernel.interest fd = none := by
          by_contra hsome
          obtain ⟨m, hm⟩ := Option.ne_none_iff_exists'.mp hsome
          obtain ⟨-, -, rfl, hm⟩ := hw fd m hm
          exact hm hmask
        have hlive : ¬s.Stale fd := fun h ↦ h.2.1 hmask
        simp only [if_pos hmask, hnone, ne_eq, not_true_eq_false, if_false]
        by_cases hrefused : refused = true
        · simp only [if_pos hrefused]
          exact .failed (Or.inr (Or.inr (Or.inr ⟨hmask, hrefused⟩)))
        · simp only [if_neg hrefused]
          exact .created hlt hopen' hlive (fun _ ↦ by simpa using hrefused) rfl
      · simp only [if_neg hmask]
        by_cases hnone : s.kernel.interest fd = none
        · simp only [if_pos hnone]
          exact .failed (Or.inr (Or.inr (Or.inl ⟨hlt, hmask, hnone⟩)))
        · simp only [if_neg hnone]
          exact .created hlt hopen' (fun h ↦ hnone h.2.2) (fun h ↦ absurd h hmask) rfl

/-! ## What one operation does -/

theorem mask_update (s : Files) (fd j : ℕ) (fe : FileEvent) :
    (Function.update s.events fd fe j).mask = if j = fd then fe.mask else s.mask j := by
  by_cases hj : j = fd
  · rw [hj, Function.update_self, if_pos rfl]
  · rw [Function.update_of_ne hj, if_neg hj]
    rfl

theorem lastBelow_lt (s : Files) (j : ℕ) : -1 ≤ s.lastBelow j ∧ s.lastBelow j < j := by
  induction j with
  | zero =>
      rw [lastBelow]
      omega
  | succ j ih =>
      rw [lastBelow]
      split_ifs <;> push_cast <;> omega

theorem lastBelow_largest (s : Files) {j fd : ℕ} (hfd : fd < j) (hmask : s.mask fd ≠ ⊥) :
    (fd : ℤ) ≤ s.lastBelow j := by
  induction j with
  | zero => omega
  | succ j ih =>
      rw [lastBelow]
      by_cases hj : s.mask j = ⊥
      · rw [if_neg (not_not_intro hj)]
        have hne : fd ≠ j := fun h ↦ hmask (h ▸ hj)
        exact ih (by omega)
      · rw [if_pos hj]
        omega

theorem lastBelow_registered (s : Files) {j fd : ℕ} (h : (fd : ℤ) = s.lastBelow j) :
    s.mask fd ≠ ⊥ := by
  induction j with
  | zero =>
      rw [lastBelow] at h
      omega
  | succ j ih =>
      rw [lastBelow] at h
      split_ifs at h with hj
      · rwa [Int.ofNat_inj.mp h]
      · exact ih h

/-- What is left of the interest in `fd`. -/
def interestLeft (s : Files) (fd : ℕ) (mask : Mask) : Option Mask :=
  if s.kernel.interest fd = none ∨ s.mask fd \ mask = ⊥ then none else some (s.mask fd \ mask)

theorem aeApiDelEvent_spec (hw : s.Watched) (fd : ℕ) (mask : Mask) :
    (s.aeApiDelEvent fd mask).isOpen = s.kernel.isOpen ∧
      (s.aeApiDelEvent fd mask).interest =
        Function.update s.kernel.interest fd (s.interestLeft fd mask) := by
  unfold aeApiDelEvent Kernel.epollCtl interestLeft
  by_cases hnone : s.kernel.interest fd = none
  · have hsame : Function.update s.kernel.interest fd none = s.kernel.interest := by
      rw [← hnone, Function.update_eq_self]
    dsimp only
    rw [if_pos (Or.inl hnone), hsame]
    split_ifs <;> exact ⟨rfl, rfl⟩
  · obtain ⟨m, hm⟩ := Option.ne_none_iff_exists'.mp hnone
    have hopen : ¬s.kernel.isOpen fd = false := by
      rw [(hw fd m hm).1]
      decide
    dsimp only
    by_cases hleft : s.mask fd \ mask = ⊥
    · rw [if_neg (not_not_intro hleft), if_neg hopen, if_neg hnone, if_pos (Or.inr hleft)]
      exact ⟨rfl, rfl⟩
    · rw [if_pos hleft, if_neg hopen, if_neg hnone, if_neg (not_or.mpr ⟨hnone, hleft⟩)]
      exact ⟨rfl, rfl⟩

/-- What deleting an event comes to. -/
inductive DeleteResult (s : Files) (fd : ℕ) (mask : Mask) : Files → Prop
  | nothing (h : fd < s.setsize → s.mask fd = ⊥) : DeleteResult s fd mask s
  | deleted {s' : Files} (hfd : fd < s.setsize) (hmask : s.mask fd ≠ ⊥)
      (hsetsize : s'.setsize = s.setsize)
      (hevents : ∀ j, s'.mask j = if j = fd then s.mask fd \ mask else s.mask j)
      (hmaxfd : s'.maxfd = s.maxfd ∧ ¬((fd : ℤ) = s.maxfd ∧ s.mask fd \ mask = ⊥) ∨
        s'.maxfd = s'.lastBelow fd ∧ (fd : ℤ) = s.maxfd ∧ s.mask fd \ mask = ⊥)
      (hopen : s'.kernel.isOpen = s.kernel.isOpen)
      (hinterest : s'.kernel.interest =
        Function.update s.kernel.interest fd (s.interestLeft fd mask)) :
      DeleteResult s fd mask s'

theorem lastBelow_congr {s s' : Files} (h : ∀ j, s'.mask j = s.mask j) (j : ℕ) :
    s'.lastBelow j = s.lastBelow j := by
  induction j with
  | zero => rfl
  | succ j ih => rw [lastBelow, lastBelow, h, ih]

theorem aeDeleteFileEvent_cases (hw : s.Watched) (fd : ℕ) (mask : Mask) :
    DeleteResult s fd mask (s.aeDeleteFileEvent fd mask) := by
  obtain ⟨hopen, hinterest⟩ := aeApiDelEvent_spec hw fd mask
  unfold aeDeleteFileEvent
  by_cases hfd : s.setsize ≤ fd
  · rw [if_pos hfd]
    exact .nothing fun h ↦ absurd h (not_lt.mpr hfd)
  · rw [if_neg hfd]
    by_cases hmask : s.mask fd = ⊥
    · rw [if_pos hmask]
      exact .nothing fun _ ↦ hmask
    · rw [if_neg hmask]
      have hself : (Function.update s.events fd
          { s.events fd with mask := (s.events fd).mask \ mask } fd).mask = s.mask fd \ mask := by
        rw [Function.update_self]
        rfl
      dsimp only
      split_ifs with hlast
      · have hlast' : (fd : ℤ) = s.maxfd ∧ s.mask fd \ mask = ⊥ :=
          ⟨hlast.1, hself.symm.trans hlast.2⟩
        refine .deleted (not_le.mp hfd) hmask rfl (fun j ↦ mask_update s fd j _)
          (Or.inr ⟨?_, hlast'⟩) hopen hinterest
        change lastBelow _ fd = lastBelow _ fd
        apply lastBelow_congr
        exact fun j ↦ rfl
      · have hlast' : ¬((fd : ℤ) = s.maxfd ∧ s.mask fd \ mask = ⊥) :=
          fun h ↦ hlast ⟨h.1, hself.trans h.2⟩
        exact .deleted (not_le.mp hfd) hmask rfl (fun j ↦ mask_update s fd j _)
          (Or.inl ⟨rfl, hlast'⟩) hopen hinterest

/-! ## What every operation keeps -/

theorem Tracked.create (h : s.Tracked) (hmask : mask ≠ ⊥) {refused : Bool}
    {r : Status × Files} (hr : CreateResult s fd mask refused r) : r.2.Tracked := by
  cases hr with
  | failed _ => exact h
  | @created fe hfd hopen hlive hnew hfe =>
      obtain ⟨⟨hlow, hhigh⟩, hlargest, hregistered⟩ := h
      have hset : ∀ j, (Function.update s.events fd fe j).mask =
          if j = fd then fe.mask else s.mask j := fun j ↦ mask_update s fd j fe
      have hne : fe.mask ≠ ⊥ := by
        rw [hfe]
        exact fun hbot ↦ hmask (sup_eq_bot_iff.mp hbot).2
      refine ⟨⟨le_max_of_le_left hlow, max_lt hhigh (by exact_mod_cast hfd)⟩, ?_, ?_⟩
      · intro j hj hmaskj
        change (Function.update s.events fd fe j).mask ≠ ⊥ at hmaskj
        rw [hset] at hmaskj
        by_cases hjfd : j = fd
        · rw [hjfd]
          exact le_max_right _ _
        · rw [if_neg hjfd] at hmaskj
          exact (hlargest j hj hmaskj).trans (le_max_left _ _)
      · intro j hj
        change (Function.update s.events fd fe j).mask ≠ ⊥
        rw [hset]
        by_cases hjfd : j = fd
        · rwa [if_pos hjfd]
        · rw [if_neg hjfd]
          apply hregistered
          rcases max_choice s.maxfd (fd : ℤ) with hmax | hmax
          · exact hj.trans hmax
          · exact absurd (Int.ofNat_inj.mp (hj.trans hmax)) hjfd

theorem Tracked.delete (h : s.Tracked) (hr : DeleteResult s fd mask s') : s'.Tracked := by
  cases hr with
  | nothing _ => exact h
  | deleted hfd hmask hsetsize hevents hmaxfd _ _ =>
      obtain ⟨⟨hlow, hhigh⟩, hlargest, hregistered⟩ := h
      have hkept : ∀ j, s'.mask j ≠ ⊥ → s.mask j ≠ ⊥ := by
        intro j hj
        rw [hevents] at hj
        by_cases hjfd : j = fd
        · exact hjfd ▸ hmask
        · rwa [if_neg hjfd] at hj
      rcases hmaxfd with ⟨hsame, hnot⟩ | ⟨hlast, hfdmax, hleft⟩
      · refine ⟨by rw [hsame, hsetsize]; exact ⟨hlow, hhigh⟩, fun j hj hmaskj ↦ ?_, fun j hj ↦ ?_⟩
        · rw [hsame]
          exact hlargest j (hsetsize ▸ hj) (hkept j hmaskj)
        · rw [hsame] at hj
          rw [hevents]
          by_cases hjfd : j = fd
          · rw [if_pos hjfd]
            exact fun hleft ↦ hnot ⟨hjfd ▸ hj, hleft⟩
          · rw [if_neg hjfd]
            exact hregistered j hj
      · obtain ⟨hlow', hless⟩ := lastBelow_lt s' fd
        refine ⟨⟨hlast ▸ hlow', ?_⟩, fun j hj hmaskj ↦ ?_, fun j hj ↦ ?_⟩
        · rw [hlast, hsetsize]
          omega
        · rw [hlast]
          have hle := hlargest j (hsetsize ▸ hj) (hkept j hmaskj)
          have hjfd : j ≠ fd := by
            rintro rfl
            rw [hevents, if_pos rfl] at hmaskj
            exact hmaskj hleft
          apply lastBelow_largest s' _ hmaskj
          omega
        · exact lastBelow_registered s' (hj.trans hlast)

theorem Tracked.resize (h : s.Tracked) (setsize : ℕ) : (s.aeResizeSetSize setsize).2.Tracked := by
  unfold aeResizeSetSize
  split_ifs with hsame hsmall
  · exact h
  · exact h
  · obtain ⟨⟨hlow, hhigh⟩, hlargest, hregistered⟩ := h
    refine ⟨⟨hlow, not_le.mp hsmall⟩, fun j hj hmaskj ↦ ?_, fun j hj ↦ ?_⟩
    · by_contra hlt
      apply hmaskj
      change (if s.maxfd < j ∧ j < setsize then { s.events j with mask := ⊥ }
        else s.events j).mask = ⊥
      rw [if_pos ⟨not_le.mp hlt, hj⟩]
    · change (if s.maxfd < j ∧ j < setsize then { s.events j with mask := ⊥ }
        else s.events j).mask ≠ ⊥
      have hj' : (j : ℤ) = s.maxfd := hj
      rw [if_neg (fun hbig ↦ by omega)]
      exact hregistered j hj

theorem Watched.step (hw : s.Watched) (ht : s.Tracked) {a : FileOp} (hproper : Proper a) :
    (s.perform a).Watched := by
  cases a with
  | create fd mask proc clientData refused =>
      have hr := aeCreateFileEvent_cases hw fd mask proc clientData refused
      rw [perform]
      generalize s.aeCreateFileEvent fd mask proc clientData refused = r at hr
      cases hr with
      | failed _ => exact hw
      | @created fe hfd hopen hlive hnew hfe =>
          intro j m hm
          have hset := mask_update s fd j fe
          change Function.update s.kernel.interest fd (some (mask ⊔ s.mask fd)) j = some m at hm
          change s.kernel.isOpen j = true ∧ j < s.setsize ∧
            m = (Function.update s.events fd fe j).mask ∧ m ≠ ⊥
          rw [hset]
          by_cases hj : j = fd
          · subst hj
            rw [Function.update_self] at hm
            obtain rfl := Option.some.inj hm
            refine ⟨hopen, hfd, ?_, fun hbot ↦ hproper (sup_eq_bot_iff.mp hbot).1⟩
            rw [if_pos rfl, hfe, sup_comm]
          · rw [Function.update_of_ne hj] at hm
            rw [if_neg hj]
            exact hw j m hm
  | delete fd mask =>
      have hr := aeDeleteFileEvent_cases hw fd mask
      rw [perform]
      generalize s.aeDeleteFileEvent fd mask = s' at hr
      cases hr with
      | nothing _ => exact hw
      | deleted hfd hmask hsetsize hevents _ hopen hinterest =>
          intro j m hm
          rw [hinterest] at hm
          rw [hopen, hsetsize, hevents]
          by_cases hj : j = fd
          · subst hj
            rw [Function.update_self, interestLeft] at hm
            split_ifs at hm with hnone
            obtain rfl := Option.some.inj hm
            obtain ⟨hwatched, hleft⟩ := not_or.mp hnone
            obtain ⟨m, hm⟩ := Option.ne_none_iff_exists'.mp hwatched
            exact ⟨(hw j m hm).1, hfd, (if_pos rfl).symm, hleft⟩
          · rw [Function.update_of_ne hj] at hm
            rw [if_neg hj]
            exact hw j m hm
  | resize setsize =>
      intro j m
      rw [perform]
      unfold aeResizeSetSize
      split_ifs with hsame hsmall
      · exact hw j m
      · exact hw j m
      · intro hm
        obtain ⟨hopen, hj, hmask, hne⟩ := hw j m hm
        have hle := ht.largest j hj (hmask ▸ hne)
        refine ⟨hopen, ?_, ?_, hne⟩
        · change j < setsize
          omega
        · change m = (if s.maxfd < j ∧ j < setsize then { s.events j with mask := ⊥ }
            else s.events j).mask
          rw [if_neg (fun hbig ↦ absurd hbig.1 (not_lt.mpr hle))]
          exact hmask
  | opened fd =>
      intro j m hm
      obtain ⟨hopenj, hrest⟩ := hw j m hm
      refine ⟨?_, hrest⟩
      change Function.update s.kernel.isOpen fd true j = true
      by_cases hj : j = fd
      · rw [hj, Function.update_self]
      · rwa [Function.update_of_ne hj]
  | close fd =>
      intro j m hm
      change Function.update s.kernel.interest fd none j = some m at hm
      by_cases hj : j = fd
      · rw [hj, Function.update_self] at hm
        cases hm
      · rw [Function.update_of_ne hj] at hm
        obtain ⟨hopenj, hrest⟩ := hw j m hm
        refine ⟨?_, hrest⟩
        change Function.update s.kernel.isOpen fd false j = true
        rwa [Function.update_of_ne hj]

theorem Tracked.step (ht : s.Tracked) (hw : s.Watched) {a : FileOp} (hproper : Proper a) :
    (s.perform a).Tracked := by
  cases a with
  | create fd mask proc clientData refused =>
      exact ht.create hproper (aeCreateFileEvent_cases hw fd mask proc clientData refused)
  | delete fd mask =>
      exact ht.delete (aeDeleteFileEvent_cases hw fd mask)
  | resize setsize =>
      exact ht.resize setsize
  | opened fd =>
      exact ⟨ht.range, ht.largest, ht.registered⟩
  | close fd =>
      exact ⟨ht.range, ht.largest, ht.registered⟩

/-- The operation changes the event of `fd`. -/
def Touches (fd : ℕ) : FileOp → Prop
  | .create j _ _ _ _ | .delete j _ => j = fd
  | .resize _ => True
  | .opened _ | .close _ => False

theorem events_untouched (s : Files) {fd : ℕ} {a : FileOp} (h : ¬Touches fd a) :
    (s.perform a).events fd = s.events fd := by
  cases a with
  | create j mask proc clientData refused =>
      have hne : fd ≠ j := fun heq ↦ h heq.symm
      rw [perform]
      unfold aeCreateFileEvent
      by_cases hj : s.setsize ≤ j
      · rw [if_pos hj]
      · rw [if_neg hj]
        split
        · rfl
        · exact Function.update_of_ne hne ..
  | delete j mask =>
      have hne : fd ≠ j := fun heq ↦ h heq.symm
      rw [perform]
      unfold aeDeleteFileEvent
      dsimp only
      split_ifs
      · rfl
      · rfl
      · exact Function.update_of_ne hne ..
      · exact Function.update_of_ne hne ..
  | resize setsize => exact absurd trivial h
  | opened j => rfl
  | close j => rfl

/-- What only `aeResizeSetSize` changes. -/
theorem size_kept (s : Files) {a : FileOp} (h : ∀ setsize, a ≠ .resize setsize) :
    (s.perform a).setsize = s.setsize ∧ (s.perform a).block = s.block ∧
      (s.perform a).fired = s.fired := by
  cases a with
  | create j mask proc clientData refused =>
      rw [perform]
      unfold aeCreateFileEvent
      by_cases hj : s.setsize ≤ j
      · rw [if_pos hj]
        exact ⟨rfl, rfl, rfl⟩
      · rw [if_neg hj]
        split <;> exact ⟨rfl, rfl, rfl⟩
  | delete j mask =>
      rw [perform]
      unfold aeDeleteFileEvent
      dsimp only
      split_ifs <;> exact ⟨rfl, rfl, rfl⟩
  | resize setsize => exact absurd rfl (h setsize)
  | opened j => exact ⟨rfl, rfl, rfl⟩
  | close j => exact ⟨rfl, rfl, rfl⟩

theorem reach_tracked (hs : fileEvents.Reach (fun _ a ↦ Proper a) s) : s.Tracked ∧ s.Watched := by
  apply hs.invariant
  · intro s h
    exact ⟨h.tracked, h.watched⟩
  · intro s a s' h hproper hstep
    obtain rfl := Option.some.inj hstep
    exact ⟨h.1.step h.2 hproper, h.2.step h.1 hproper⟩

/-! ## Descriptors that are closed too early -/

theorem stale_create {j : ℕ} {refused : Bool} {r : Status × Files}
    (hr : CreateResult s fd mask refused r) :
    r.2.Stale j ↔ j < r.2.setsize ∧ r.2.mask j ≠ ⊥ ∧ s.Stale j := by
  cases hr with
  | failed _ => exact ⟨fun h ↦ ⟨h.1, h.2.1, h⟩, fun h ↦ h.2.2⟩
  | @created fe hfd hopen hlive hnew hfe =>
      have hset := mask_update s fd j fe
      change (j < s.setsize ∧ (Function.update s.events fd fe j).mask ≠ ⊥ ∧
        Function.update s.kernel.interest fd (some (mask ⊔ s.mask fd)) j = none) ↔ j < s.setsize ∧
          (Function.update s.events fd fe j).mask ≠ ⊥ ∧ s.Stale j
      rw [hset]
      by_cases hj : j = fd
      · subst hj
        rw [Function.update_self]
        exact ⟨fun h ↦ (nomatch h.2.2), fun h ↦ absurd h.2.2 hlive⟩
      · rw [Function.update_of_ne hj, if_neg hj]
        exact ⟨fun h ↦ ⟨h.1, h.2.1, h⟩, fun h ↦ h.2.2⟩

theorem stale_delete {j : ℕ} (hr : DeleteResult s fd mask s') :
    s'.Stale j ↔ j < s'.setsize ∧ s'.mask j ≠ ⊥ ∧ s.Stale j := by
  cases hr with
  | nothing _ => exact ⟨fun h ↦ ⟨h.1, h.2.1, h⟩, fun h ↦ h.2.2⟩
  | deleted hfd hmask hsetsize hevents _ _ hinterest =>
      rw [Stale, hsetsize, hinterest, hevents]
      by_cases hj : j = fd
      · subst hj
        rw [Function.update_self, interestLeft, if_pos rfl]
        constructor
        · rintro ⟨hlt, hleft, hnone⟩
          by_cases hstale : s.kernel.interest j = none
          · exact ⟨hlt, hleft, hlt, hmask, hstale⟩
          · rw [if_neg (not_or.mpr ⟨hstale, hleft⟩)] at hnone
            cases hnone
        · rintro ⟨hlt, hleft, hstale⟩
          exact ⟨hlt, hleft, if_pos (Or.inl hstale.2.2)⟩
      · rw [Function.update_of_ne hj, if_neg hj]
        exact ⟨fun h ↦ ⟨h.1, h.2.1, h⟩, fun h ↦ h.2.2⟩

theorem stale_step (ht : s.Tracked) (hw : s.Watched) (a : FileOp) (j : ℕ) :
    (s.perform a).Stale j ↔
      j < (s.perform a).setsize ∧ (s.perform a).mask j ≠ ⊥ ∧ (s.Stale j ∨ a = .close j) := by
  cases a with
  | create fd mask proc clientData refused =>
      rw [perform, stale_create (aeCreateFileEvent_cases hw fd mask proc clientData refused)]
      simp only [reduceCtorEq, or_false]
  | delete fd mask =>
      rw [perform, stale_delete (aeDeleteFileEvent_cases hw fd mask)]
      simp only [reduceCtorEq, or_false]
  | resize setsize =>
      simp only [reduceCtorEq, or_false]
      rw [perform]
      unfold aeResizeSetSize
      split_ifs with hsame hsmall
      · exact ⟨fun h ↦ ⟨h.1, h.2.1, h⟩, fun h ↦ h.2.2⟩
      · exact ⟨fun h ↦ ⟨h.1, h.2.1, h⟩, fun h ↦ h.2.2⟩
      · have hold : j < setsize → (if s.maxfd < j ∧ j < setsize then { s.events j with mask := ⊥ }
            else s.events j).mask ≠ ⊥ → j < s.setsize ∧ s.mask j ≠ ⊥ := by
          intro hj hmask
          have hrange := ht.range.2
          by_cases hbig : s.maxfd < j ∧ j < setsize
          · rw [if_pos hbig] at hmask
            exact absurd rfl hmask
          · rw [if_neg hbig] at hmask
            exact ⟨by omega, hmask⟩
        constructor
        · intro h
          obtain ⟨hlt, hmask⟩ := hold h.1 h.2.1
          exact ⟨h.1, h.2.1, hlt, hmask, h.2.2⟩
        · intro h
          exact ⟨h.1, h.2.1, h.2.2.2.2⟩
  | opened fd =>
      simp only [reduceCtorEq, or_false]
      constructor
      · exact fun h ↦ ⟨h.1, h.2.1, h⟩
      · exact fun h ↦ h.2.2
  | close fd =>
      simp only [FileOp.close.injEq]
      change (j < s.setsize ∧ s.mask j ≠ ⊥ ∧ Function.update s.kernel.interest fd none j = none) ↔
        j < s.setsize ∧ s.mask j ≠ ⊥ ∧ (s.Stale j ∨ fd = j)
      by_cases hj : j = fd
      · subst hj
        rw [Function.update_self]
        exact ⟨fun h ↦ ⟨h.1, h.2.1, Or.inr rfl⟩, fun h ↦ ⟨h.1, h.2.1, rfl⟩⟩
      · rw [Function.update_of_ne hj]
        constructor
        · intro h
          exact ⟨h.1, h.2.1, Or.inl h⟩
        · rintro ⟨hlt, hmask, hstale | rfl⟩
          · exact hstale
          · exact absurd rfl hj

/-- In every run `maxfd` is the largest registered descriptor, and what the kernel
watches is what is registered, but for the stale descriptors: those that were closed
while they were registered, until their events are deleted.  On these, and on no
others that are open and in range, creating an event fails whether or not the number
stands for a new descriptor. -/
theorem fileEvents_tracked (hs : fileEvents.Reach (fun _ a ↦ Proper a) s) :
    s.Tracked ∧ s.Watched ∧
      (∀ fd mask proc clientData refused,
        (s.aeCreateFileEvent fd mask proc clientData refused).1 = .ok ↔
          fd < s.setsize ∧ s.kernel.isOpen fd = true ∧ ¬s.Stale fd ∧
            (s.mask fd = ⊥ → refused = false)) ∧
      ∀ a fd, (s.perform a).Stale fd ↔
        fd < (s.perform a).setsize ∧ (s.perform a).mask fd ≠ ⊥ ∧ (s.Stale fd ∨ a = .close fd) := by
  obtain ⟨ht, hw⟩ := reach_tracked hs
  refine ⟨ht, hw, fun fd mask proc clientData refused ↦ ?_,
    stale_step ht hw⟩
  have hr := aeCreateFileEvent_cases hw fd mask proc clientData refused
  generalize s.aeCreateFileEvent fd mask proc clientData refused = r at hr
  cases hr with
  | failed h =>
      refine iff_of_false (fun hok ↦ nomatch hok) ?_
      rintro ⟨hfd, hopen, hlive, hnew⟩
      rcases h with h | h | h | ⟨hmask, hrefused⟩
      · exact h hfd
      · exact absurd (hopen.symm.trans h) (by decide)
      · exact hlive h
      · exact absurd (hrefused.symm.trans (hnew hmask)) (by decide)
  | created hfd hopen hlive hnew _ => exact iff_of_true rfl ⟨hfd, hopen, hlive, hnew⟩

def emptyLoop : Files :=
  ⟨-1, 16, 0, fun _ ↦ ⟨⊥, 0, 0, 0⟩, [], ⟨fun _ ↦ false, fun _ ↦ none⟩⟩

theorem emptyLoop_created : emptyLoop.Created :=
  ⟨rfl, fun _ _ ↦ rfl, fun _ ↦ rfl⟩

/-- Descriptor 5 is closed with an event, and then it is a new one. -/
theorem fileEvents_tracked_reused :
    ∃ s, fileEvents.run emptyLoop [.opened 5, .create 5 aeReadable 1 0 false, .close 5,
        .opened 5] = some s ∧
      s.Tracked ∧ (s.aeCreateFileEvent 5 aeReadable 2 0 false).1 ≠ .ok := by
  have hmeets : fileEvents.Meets (fun _ a ↦ Proper a) emptyLoop
      [.opened 5, .create 5 aeReadable 1 0 false, .close 5, .opened 5] := by decide
  obtain ⟨ht, -, hcreate, -⟩ := fileEvents_tracked (.run (.start emptyLoop_created) hmeets rfl)
  exact ⟨_, rfl, ht, fun hok ↦ ((hcreate 5 aeReadable 2 0 false).mp hok).2.2.1 (by decide)⟩

/-- The program closes no descriptor with events. -/
def Tidy (s : Files) : FileOp → Prop
  | .close fd => s.aeGetFileEvents fd = ⊥
  | a => Proper a

instance (s : Files) : DecidablePred s.Tidy
  | .create _ mask _ _ _ => inferInstanceAs (Decidable (mask ≠ ⊥))
  | .close fd => inferInstanceAs (Decidable (s.aeGetFileEvents fd = ⊥))
  | .delete _ _ | .resize _ | .opened _ => .isTrue trivial

theorem Tidy.proper {a : FileOp} (h : s.Tidy a) : Proper a := by
  cases a with
  | create fd mask proc clientData refused => exact h
  | delete fd mask => trivial
  | resize setsize => trivial
  | opened fd => trivial
  | close fd => trivial

/-- When no descriptor is closed with events, the kernel watches what is registered. -/
theorem fileEvents_interest (hs : fileEvents.Reach Tidy s) (fd : ℕ) :
    s.kernel.interest fd =
      if s.aeGetFileEvents fd = ⊥ then none else some (s.aeGetFileEvents fd) := by
  have h : s.Tracked ∧ s.Watched ∧ ∀ fd, ¬s.Stale fd := by
    apply hs.invariant
    · intro s h
      exact ⟨h.tracked, h.watched, fun fd hstale ↦ hstale.2.1 (h.mask fd hstale.1)⟩
    · rintro s a s' ⟨ht, hw, hlive⟩ htidy hstep
      have hproper := htidy.proper
      obtain rfl := Option.some.inj hstep
      refine ⟨ht.step hw hproper, hw.step ht hproper, fun fd hstale ↦ ?_⟩
      obtain ⟨hlt, hmask, hold | rfl⟩ := (stale_step ht hw a fd).mp hstale
      · exact hlive fd hold
      · have hnone : s.aeGetFileEvents fd = ⊥ := htidy
        have hlt' : fd < s.setsize := hlt
        rw [aeGetFileEvents, if_neg (not_le.mpr hlt')] at hnone
        exact hmask hnone
  obtain ⟨-, hw, hlive⟩ := h
  have hnone : s.aeGetFileEvents fd = ⊥ ↔ s.kernel.interest fd = none := by
    rw [aeGetFileEvents]
    constructor
    · intro hbot
      by_contra hsome
      obtain ⟨m, hm⟩ := Option.ne_none_iff_exists'.mp hsome
      obtain ⟨-, hlt, rfl, hne⟩ := hw fd m hm
      rw [if_neg (not_le.mpr hlt)] at hbot
      exact hne hbot
    · intro hnone
      split_ifs with hfd
      · rfl
      · by_contra hmask
        exact hlive fd ⟨not_le.mp hfd, hmask, hnone⟩
  split_ifs with hbot
  · exact hnone.mp hbot
  · obtain ⟨m, hm⟩ := Option.ne_none_iff_exists'.mp fun h ↦ hbot (hnone.mpr h)
    obtain ⟨-, hlt, rfl, -⟩ := hw fd m hm
    rw [aeGetFileEvents, if_neg (not_le.mpr hlt), hm]

theorem fileEvents_interest_two :
    ∃ s, fileEvents.run emptyLoop [.opened 5, .create 5 aeReadable 1 0 false,
        .create 5 aeWritable 2 0 false, .delete 5 aeReadable] = some s ∧
      s.kernel.interest 5 = some aeWritable := by
  have hs : fileEvents.Reach Tidy emptyLoop := .start emptyLoop_created
  have hmeets : fileEvents.Meets Tidy emptyLoop [.opened 5, .create 5 aeReadable 1 0 false,
      .create 5 aeWritable 2 0 false, .delete 5 aeReadable] := by decide
  exact ⟨_, rfl, fileEvents_interest (hs.run hmeets rfl) 5⟩

end Files

end Ae

end MuxHiredis
