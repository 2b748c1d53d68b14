import MuxHiredis.Async.Callbacks
import MuxHiredis.Async.Command
import MuxHiredis.Async.Growth
import MuxHiredis.Lib.Machine

/-!
# Publish and subscribe

A session of one context with a server that answers strictly in order.  The
client enters subscribe mode when it issues a command, and leaves it when it
processes a reply, so its mode lags behind the server's by everything under way.
-/

namespace MuxHiredis

/-! ## The server -/

/-- The channels and patterns a client is subscribed to, as the server has
them. -/
structure Subscriptions where
  channels : List (List UInt8)
  patterns : List (List UInt8)
  deriving DecidableEq

namespace Subscriptions

def empty : Subscriptions := ⟨[], []⟩

def of (subs : Subscriptions) (pattern : Bool) : List (List UInt8) :=
  if pattern then subs.patterns else subs.channels

def count (subs : Subscriptions) : ℕ := subs.channels.length + subs.patterns.length

def add (subs : Subscriptions) (pattern : Bool) (name : List UInt8) : Subscriptions :=
  if pattern then { subs with patterns := subs.patterns.insert name }
  else { subs with channels := subs.channels.insert name }

def remove (subs : Subscriptions) (pattern : Bool) (name : List UInt8) : Subscriptions :=
  if pattern then { subs with patterns := subs.patterns.filter (· ≠ name) }
  else { subs with channels := subs.channels.filter (· ≠ name) }

def addAll (subs : Subscriptions) (pattern : Bool) (names : List (List UInt8)) : Subscriptions :=
  names.foldl (fun subs name ↦ subs.add pattern name) subs

def removeAll (subs : Subscriptions) (pattern : Bool) (names : List (List UInt8)) :
    Subscriptions :=
  names.foldl (fun subs name ↦ subs.remove pattern name) subs

end Subscriptions

/-- What the server takes a command for.  An `unsubscribe` without names is for
all of them. -/
inductive Request where
  | subscribe (pattern : Bool) (names : List (List UInt8))
  | unsubscribe (pattern : Bool) (names : List (List UInt8))
  | ordinary
  deriving DecidableEq

def Command.request (c : Command) : Request :=
  let word := c.name.map tolower
  if word = pubsubWord false "subscribe" ∧ c.args ≠ [] then .subscribe false c.args
  else if word = pubsubWord true "subscribe" ∧ c.args ≠ [] then .subscribe true c.args
  else if word = pubsubWord false "unsubscribe" then .unsubscribe false c.args
  else if word = pubsubWord true "unsubscribe" then .unsubscribe true c.args
  else .ordinary

/-- The subscriptions after a request. -/
def Subscriptions.after (subs : Subscriptions) : Request → Subscriptions
  | .subscribe pattern names => subs.addAll pattern names
  | .unsubscribe pattern [] => subs.removeAll pattern (subs.of pattern)
  | .unsubscribe pattern names => subs.removeAll pattern names
  | .ordinary => subs

/-- The message about one channel or pattern, with the remaining number of
subscriptions. -/
def confirmation (pattern : Bool) (word : String) (name : ReplyTree) (remaining : ℕ) : ReplyTree :=
  .array [.string (pubsubWord pattern word), name, .integer remaining]

/-- One confirmation for each name, in the order of the command. -/
def subscribeReplies (pattern : Bool) : Subscriptions → List (List UInt8) → List ReplyTree
  | _, [] => []
  | subs, name :: names =>
      let subs := subs.add pattern name
      confirmation pattern "subscribe" (.string name) subs.count ::
        subscribeReplies pattern subs names

def unsubscribeReplies (pattern : Bool) : Subscriptions → List (List UInt8) → List ReplyTree
  | _, [] => []
  | subs, name :: names =>
      let subs := subs.remove pattern name
      confirmation pattern "unsubscribe" (.string name) subs.count ::
        unsubscribeReplies pattern subs names

/-- A message published to a channel, or to a channel that matches a pattern. -/
def message (pattern : Bool) (name : List UInt8) (rest : List (List UInt8)) : ReplyTree :=
  .array (.string (pubsubWord pattern "message") :: .string name :: rest.map .string)

/-- Whether an ordinary command may be answered so in subscribe mode: with an
error, or as PING and QUIT are. -/
def refusal : ReplyTree → Bool
  | .array [.string pong, .string _] => decide (pong = ascii "pong")
  | .array _ => false
  | _ => true

/-! ## The session -/

/-- The context with the local variable of its running `redisProcessCallbacks`,
the commands and the replies under way, and the server's side. -/
structure Session where
  ac : AsyncContext
  cb : RedisCallback
  sent : List Command
  server : Subscriptions
  replies : List ReplyTree

namespace Session

/-- What can happen.  `serve` carries the choices of the server: the answer to
an ordinary command, and the order in which an `unsubscribe` without names goes
through what there is. -/
inductive Action where
  | issue (fn : Option ℕ) (privdata : ℕ) (c : Command)
  | serve (answer : ReplyTree) (order : List (List UInt8))
  | publish (pattern : Bool) (name : List UInt8) (rest : List (List UInt8))
  | deliver
  | endCall

/-- A command is issued, also from inside of a callback. -/
def issue (s : Session) (fn : Option ℕ) (privdata : ℕ) (c : Command) : Option Session :=
  match s.ac.asyncCommand fn privdata c.bytes with
  | none => none
  | some (.ok, ac) => some { s with ac := ac, sent := s.sent ++ [c] }
  | some (.err, ac) => some { s with ac := ac }

/-- The server's replies to a request. -/
def answers (subs : Subscriptions) (answer : ReplyTree) (order : List (List UInt8)) :
    Request → Option (List ReplyTree)
  | .subscribe pattern names => some (subscribeReplies pattern subs names)
  | .unsubscribe pattern [] =>
      if subs.of pattern = [] then some [confirmation pattern "unsubscribe" .nil subs.count]
      else if order.Perm (subs.of pattern) then some (unsubscribeReplies pattern subs order)
      else none
  | .unsubscribe pattern names => some (unsubscribeReplies pattern subs names)
  | .ordinary => if subs.count = 0 ∨ refusal answer then some [answer] else none

/-- The server takes the next command. -/
def serve (s : Session) (answer : ReplyTree) (order : List (List UInt8)) : Option Session :=
  match s.sent with
  | [] => none
  | c :: rest =>
      (answers s.server answer order c.request).map fun replies ↦
        { s with
          sent := rest
          server := s.server.after c.request
          replies := s.replies ++ replies }

/-- A message comes for a subscription. -/
def publish (s : Session) (pattern : Bool) (name : List UInt8) (rest : List (List UInt8)) :
    Option Session :=
  if name ∈ s.server.of pattern then
    some { s with replies := s.replies ++ [message pattern name rest] }
  else none

/-- The loop of `redisProcessCallbacks` takes a reply and finds its callback,
which then runs.  An error without a callback closes the connection and ends the
session, and so does a failed assertion. -/
def deliver (s : Session) : Option Session :=
  match s.replies with
  | [] => none
  | reply :: rest =>
      match s.ac.pickCallback s.cb reply with
      | some (.run cb ac) => some { s with ac := ac, cb := cb, replies := rest }
      | _ => none

/-- The loop has no more replies; a later call starts afresh. -/
def endCall (s : Session) : Option Session :=
  (s.ac.endOfReplies (fun _ ↦ []) none s.cb).map fun ac ↦ { s with ac := ac, cb := .null }

def step (s : Session) : Action → Option Session
  | .issue fn privdata c => s.issue fn privdata c
  | .serve answer order => s.serve answer order
  | .publish pattern name rest => s.publish pattern name rest
  | .deliver => s.deliver
  | .endCall => s.endCall

/-- A fresh context, connected or not. -/
def Start (s : Session) : Prop :=
  ∃ cErr onConnect onDisconnect, s =
    { ac := .redisAsyncInitialize cErr onConnect onDisconnect
      cb := .null
      sent := []
      server := .empty
      replies := [] }

def machine : Machine Session Action := ⟨Start, step⟩

/-- No assertion fails for the next reply, and when it finds the regular
callback list empty it is an error or comes in subscribe or monitor mode. -/
def Safe (s : Session) : Prop :=
  ∀ reply rest, s.replies = reply :: rest →
    s.ac.pickCallback s.cb reply ≠ none ∧
      (s.ac.replies = [] → (∃ line, reply = .error line) ∨ s.ac.flags.subscribed = true ∨
        s.ac.flags.monitoring = true)

/-- The subscriptions there will be when the server has taken all commands under
way. -/
def ahead (s : Session) : Subscriptions :=
  s.sent.foldl (fun subs c ↦ subs.after c.request) s.server

end Session

/-- What a request must find to end no more than the last subscription and to
be answered with replies for subscriptions: one that names what to leave leaves
a subscription before its last name, one that names nothing has something to
leave, and an ordinary command comes in subscribe mode. -/
def Subscriptions.Proper (subs : Subscriptions) : Request → Prop
  | .subscribe _ _ => True
  | .unsubscribe pattern [] => subs.of pattern ≠ []
  | .unsubscribe pattern (name :: names) =>
      (subs.removeAll pattern (name :: names).dropLast).count ≠ 0
  | .ordinary => subs.count ≠ 0

instance (subs : Subscriptions) : DecidablePred subs.Proper
  | .subscribe _ _ => .isTrue trivial
  | .unsubscribe pattern [] => inferInstanceAs (Decidable (subs.of pattern ≠ []))
  | .unsubscribe pattern (name :: names) =>
      inferInstanceAs (Decidable ((subs.removeAll pattern (name :: names).dropLast).count ≠ 0))
  | .ordinary => inferInstanceAs (Decidable (subs.count ≠ 0))

namespace Session

/-- The condition on the commands issued.  A command is shorter than the `int`
that holds its length, and an ordinary one is not taken for another.  While the
context counts itself subscribed, the commands under way leave a subscription
and the new one is proper after them. -/
def Orderly (s : Session) : Action → Prop
  | .issue _ _ c =>
      c.bytes.length < 2 ^ 31 ∧
      (c.request = .ordinary →
        commandKind c.bytes = some .regular) ∧
      (s.ac.flags.subscribed = true → s.ahead.count ≠ 0 ∧ s.ahead.Proper c.request)
  | _ => True

instance (s : Session) : DecidablePred s.Orderly
  | .issue _ _ _ => inferInstanceAs (Decidable (_ ∧ _ ∧ (_ → _ ∧ _)))
  | .serve _ _ | .publish _ _ _ | .deliver | .endCall => .isTrue trivial

end Session

/-! ## Subscriptions -/

namespace Subscriptions

theorem count_eq (subs : Subscriptions) (pattern : Bool) :
    subs.count = (subs.of pattern).length + (subs.of (!pattern)).length := by
  cases pattern
  · rfl
  · exact Nat.add_comm _ _

theorem of_remove (subs : Subscriptions) (pattern : Bool) (name : List UInt8) :
    (subs.remove pattern name).of pattern = (subs.of pattern).filter (· ≠ name) := by
  cases pattern <;> rfl

theorem of_remove_other (subs : Subscriptions) (pattern : Bool) (name : List UInt8) :
    (subs.remove pattern name).of (!pattern) = subs.of (!pattern) := by
  cases pattern <;> rfl

theorem removeAll_cons (subs : Subscriptions) (pattern : Bool) (name : List UInt8)
    (names : List (List UInt8)) : subs.removeAll pattern (name :: names) =
      (subs.remove pattern name).removeAll pattern names := rfl

theorem of_removeAll (subs : Subscriptions) (pattern : Bool) (names : List (List UInt8)) :
    (subs.removeAll pattern names).of pattern = (subs.of pattern).filter (· ∉ names) := by
  induction names generalizing subs with
  | nil => simp [removeAll]
  | cons name names ih =>
      rw [removeAll_cons, ih, of_remove, List.filter_filter]
      congr 1
      funext b
      simp [Bool.and_comm]

theorem of_removeAll_other (subs : Subscriptions) (pattern : Bool)
    (names : List (List UInt8)) :
    (subs.removeAll pattern names).of (!pattern) = subs.of (!pattern) := by
  induction names generalizing subs with
  | nil => rfl
  | cons name names ih => rw [removeAll_cons, ih, of_remove_other]

theorem count_removeAll (subs : Subscriptions) (pattern : Bool) (names : List (List UInt8)) :
    (subs.removeAll pattern names).count =
      ((subs.of pattern).filter (· ∉ names)).length + (subs.of (!pattern)).length := by
  rw [count_eq _ pattern, of_removeAll, of_removeAll_other]

theorem count_removeAll_le (subs : Subscriptions) (pattern : Bool)
    (names : List (List UInt8)) : (subs.removeAll pattern names).count ≤ subs.count := by
  rw [count_removeAll, count_eq subs pattern]
  exact Nat.add_le_add_right (List.length_filter_le _ _) _

/-- No name is there twice. -/
def Nodup (subs : Subscriptions) : Prop := ∀ pattern, (subs.of pattern).Nodup

theorem Nodup.add {subs : Subscriptions} (h : subs.Nodup) (pattern : Bool)
    (name : List UInt8) : (subs.add pattern name).Nodup := by
  intro p
  cases pattern <;> cases p
  · exact (h false).insert
  · exact h true
  · exact h false
  · exact (h true).insert

theorem Nodup.addAll {subs : Subscriptions} (h : subs.Nodup) (pattern : Bool)
    (names : List (List UInt8)) : (subs.addAll pattern names).Nodup := by
  induction names generalizing subs with
  | nil => exact h
  | cons name names ih => exact ih (h.add pattern name)

theorem Nodup.remove {subs : Subscriptions} (h : subs.Nodup) (pattern : Bool)
    (name : List UInt8) : (subs.remove pattern name).Nodup := by
  intro p
  cases pattern <;> cases p
  · exact (h false).filter _
  · exact h true
  · exact h false
  · exact (h true).filter _

theorem Nodup.removeAll {subs : Subscriptions} (h : subs.Nodup) (pattern : Bool)
    (names : List (List UInt8)) : (subs.removeAll pattern names).Nodup := by
  induction names generalizing subs with
  | nil => exact h
  | cons name names ih => exact ih (h.remove pattern name)

theorem Nodup.after {subs : Subscriptions} (h : subs.Nodup) (r : Request) :
    (subs.after r).Nodup := by
  match r with
  | .subscribe pattern names => exact h.addAll pattern names
  | .unsubscribe pattern [] => exact h.removeAll pattern _
  | .unsubscribe pattern (name :: names) => exact h.removeAll pattern (name :: names)
  | .ordinary => exact h

/-- Leaving everything of one kind, name by name, ends the last subscription with
the last name or not at all. -/
theorem Nodup.proper_order {subs : Subscriptions} (h : subs.Nodup) {pattern : Bool}
    {order : List (List UInt8)} (horder : order.Perm (subs.of pattern))
    (hne : subs.of pattern ≠ []) :
    (subs.removeAll pattern order.dropLast).count ≠ 0 := by
  have hne' : order ≠ [] := by
    rintro rfl
    exact hne horder.nil_eq.symm
  have hnodup : order.Nodup := horder.nodup_iff.mpr (h pattern)
  have hlast : order.getLast hne' ∉ order.dropLast := by
    have hsplit := List.dropLast_append_getLast hne'
    rw [← hsplit, List.nodup_append] at hnodup
    intro hmem
    exact hnodup.2.2 _ hmem _ (by simp) rfl
  have hmem : order.getLast hne' ∈ (subs.of pattern).filter (· ∉ order.dropLast) := by
    rw [List.mem_filter]
    exact ⟨horder.mem_iff.mp (List.getLast_mem hne'), by simpa using hlast⟩
  have hpos := List.length_pos_of_mem hmem
  rw [count_removeAll]
  omega

end Subscriptions

/-! ## Replies for subscriptions -/

/-- The assertions of `__redisGetSubscribeCallback` hold of the reply. -/
def WellFormed : ReplyTree → Prop
  | .array (.string stype :: .string _ :: rest) =>
      AsyncContext.isUnsubscribe stype = true → ∃ remaining more, rest = .integer remaining :: more
  | .array _ => False
  | _ => True

/-- The reply confirms that no subscription is left. -/
def Emptying (r : ReplyTree) : Prop :=
  ∃ stype name more, r = .array (.string stype :: name :: .integer 0 :: more) ∧
    AsyncContext.isUnsubscribe stype = true

theorem isUnsubscribe_subscribe (pattern : Bool) :
    AsyncContext.isUnsubscribe (pubsubWord pattern "subscribe") = false := by
  cases pattern <;> decide

theorem isUnsubscribe_message (pattern : Bool) :
    AsyncContext.isUnsubscribe (pubsubWord pattern "message") = false := by
  cases pattern <;> decide

theorem wellFormed_confirmation (pattern : Bool) (word : String) (name : List UInt8)
    (remaining : ℕ) : WellFormed (confirmation pattern word (.string name) remaining) :=
  fun _ ↦ ⟨remaining, [], rfl⟩

theorem emptying_confirmation {pattern : Bool} {word : String} {name : ReplyTree} {remaining : ℕ}
    (h : Emptying (confirmation pattern word name remaining)) :
    AsyncContext.isUnsubscribe (pubsubWord pattern word) = true ∧ remaining = 0 := by
  obtain ⟨stype, sname, more, hr, hun⟩ := h
  simp only [confirmation, ReplyTree.array.injEq, List.cons.injEq, ReplyTree.string.injEq,
    ReplyTree.integer.injEq, Int.natCast_eq_zero] at hr
  exact ⟨hr.1 ▸ hun, hr.2.2.1⟩

theorem wellFormed_message (pattern : Bool) (name : List UInt8) (rest : List (List UInt8)) :
    WellFormed (message pattern name rest) := by
  intro hun
  rw [isUnsubscribe_message] at hun
  exact absurd hun (by decide)

theorem not_emptying_message (pattern : Bool) (name : List UInt8) (rest : List (List UInt8)) :
    ¬Emptying (message pattern name rest) := by
  rintro ⟨stype, sname, more, hr, hun⟩
  simp only [message, ReplyTree.array.injEq, List.cons.injEq, ReplyTree.string.injEq] at hr
  rw [← hr.1, isUnsubscribe_message] at hun
  exact absurd hun (by decide)

theorem wellFormed_refusal {r : ReplyTree} (h : refusal r = true) :
    WellFormed r ∧ ¬Emptying r := by
  unfold refusal at h
  split at h
  · rename_i pong payload
    rw [decide_eq_true_iff] at h
    have hpong : AsyncContext.isUnsubscribe (ascii "pong") = false := by decide
    refine ⟨?_, ?_⟩
    · intro hun
      rw [h, hpong] at hun
      exact absurd hun (by decide)
    · rintro ⟨stype, name, more, hr, -⟩
      simp at hr
  · simp at h
  · rename_i hplain
    cases r with
    | array elements => exact (hplain elements rfl).elim
    | status line | error line | integer value | string bytes | nil =>
        refine ⟨trivial, ?_⟩
        rintro ⟨stype, name, more, hr, -⟩
        simp at hr

/-- The replies are for subscriptions, and one that says that nothing is left is
the last. -/
structure Closing (replies : List ReplyTree) (ended : Prop) : Prop where
  wellFormed : ∀ r ∈ replies, WellFormed r
  last : ∀ before r behind, replies = before ++ r :: behind → Emptying r → behind = [] ∧ ended

theorem Closing.singleton {r : ReplyTree} (h : WellFormed r) {ended : Prop}
    (hr : Emptying r → ended) : Closing [r] ended := by
  refine ⟨by simpa using h, ?_⟩
  intro before q behind hsplit hq
  cases before with
  | nil =>
      obtain ⟨rfl, rfl⟩ := List.cons.inj hsplit
      exact ⟨rfl, hr hq⟩
  | cons b before => simp at hsplit

/-- An earlier closing reply, or a new one, is the last. -/
theorem Closing.append {replies replies' : List ReplyTree} {ended ended' : Prop}
    (h : Closing replies ended) (hnot : ¬ended) (h' : Closing replies' ended') :
    Closing (replies ++ replies') ended' := by
  refine ⟨?_, ?_⟩
  · intro r hr
    exact (List.mem_append.mp hr).elim (h.1 r) (h'.1 r)
  · intro before r behind hsplit hr
    rcases List.append_eq_append_iff.mp hsplit with ⟨mid, hb, hmid⟩ | ⟨mid, hreplies, hmid⟩
    · exact h'.2 mid r behind hmid hr
    · cases mid with
      | nil => exact h'.2 [] r behind (by simpa using hmid.symm) hr
      | cons q mid =>
          obtain ⟨rfl, -⟩ := List.cons.inj hmid
          exact absurd (h.2 before r mid hreplies hr).2 hnot

theorem closing_subscribeReplies (pattern : Bool) (subs : Subscriptions)
    (names : List (List UInt8)) (ended : Prop) :
    Closing (subscribeReplies pattern subs names) ended := by
  have hnot : ∀ subs, ∀ r ∈ subscribeReplies pattern subs names, WellFormed r ∧ ¬Emptying r := by
    induction names with
    | nil => simp [subscribeReplies]
    | cons name names ih =>
        intro subs r hr
        rcases List.mem_cons.mp hr with rfl | hr
        · refine ⟨wellFormed_confirmation _ _ _ _, fun he ↦ ?_⟩
          have hun := (emptying_confirmation he).1
          rw [isUnsubscribe_subscribe] at hun
          exact absurd hun (by decide)
        · exact ih _ r hr
  refine ⟨fun r hr ↦ (hnot subs r hr).1, ?_⟩
  intro before r behind hsplit hr
  exact absurd hr (hnot subs r (by simp [hsplit])).2

theorem closing_unsubscribeReplies (pattern : Bool) (subs : Subscriptions)
    (names : List (List UInt8))
    (h : names ≠ [] → (subs.removeAll pattern names.dropLast).count ≠ 0) :
    Closing (unsubscribeReplies pattern subs names)
      ((subs.removeAll pattern names).count = 0) := by
  induction names generalizing subs with
  | nil => exact ⟨by simp [unsubscribeReplies], by simp [unsubscribeReplies]⟩
  | cons name names ih =>
      have htail : names ≠ [] →
          ((subs.remove pattern name).removeAll pattern names.dropLast).count ≠ 0 := by
        intro hne
        have hall := h (by simp)
        rwa [List.dropLast_cons_of_ne_nil hne, Subscriptions.removeAll_cons] at hall
      have hrest := ih _ htail
      refine ⟨?_, ?_⟩
      · intro r hr
        rcases List.mem_cons.mp hr with rfl | hr
        · exact wellFormed_confirmation _ _ _ _
        · exact hrest.1 r hr
      · intro before r behind hsplit hr
        cases before with
        | nil =>
            obtain ⟨rfl, rfl⟩ := List.cons.inj hsplit
            have hzero := (emptying_confirmation hr).2
            have hnil : names = [] := by
              by_contra hne
              have hle := Subscriptions.count_removeAll_le (subs.remove pattern name) pattern
                names.dropLast
              exact htail hne (by omega)
            subst hnil
            exact ⟨rfl, hzero⟩
        | cons b before => exact hrest.2 before r behind (List.cons.inj hsplit).2 hr

/-- What a proper request is answered with. -/
theorem closing_answers {subs : Subscriptions} (hnodup : subs.Nodup) {answer : ReplyTree}
    {order : List (List UInt8)} {request : Request} (hproper : subs.Proper request)
    {replies : List ReplyTree} (h : Session.answers subs answer order request = some replies) :
    Closing replies ((subs.after request).count = 0) := by
  match request, hproper, h with
  | .subscribe pattern names, _, h =>
      exact Option.some.inj h ▸ closing_subscribeReplies pattern subs names _
  | .unsubscribe pattern [], hne, h =>
      simp only [Session.answers, if_neg hne] at h
      split at h
      · rename_i horder
        have hclose := closing_unsubscribeReplies pattern subs order fun _ ↦
          hnodup.proper_order horder hne
        have hsame : (subs.removeAll pattern order).count =
            (subs.removeAll pattern (subs.of pattern)).count := by
          simp only [Subscriptions.count_removeAll, horder.mem_iff]
        rw [← Option.some.inj h]
        exact ⟨hclose.1, fun before r behind hs hr ↦
          ⟨(hclose.2 before r behind hs hr).1,
            hsame.symm.trans (hclose.2 before r behind hs hr).2⟩⟩
      · simp at h
  | .unsubscribe pattern (name :: names), hproper, h =>
      exact Option.some.inj h ▸ closing_unsubscribeReplies pattern subs _ fun _ ↦ hproper
  | .ordinary, hne, h =>
      simp only [Session.answers] at h
      split at h
      · rename_i hor
        obtain ⟨hw, he⟩ := wellFormed_refusal (hor.resolve_left hne)
        exact Option.some.inj h ▸ Closing.singleton hw fun hr ↦ absurd hr he
      · simp at h

/-! ## The invariant -/

/-- Every command finds what it needs once those before it have been served,
and only the last one may end the last subscription. -/
def Follows : Subscriptions → List Command → Prop
  | _, [] => True
  | subs, c :: rest =>
      subs.Proper c.request ∧ (rest = [] ∨ (subs.after c.request).count ≠ 0) ∧
        Follows (subs.after c.request) rest

/-- The subscriptions after a list of commands. -/
def Subscriptions.afterAll (subs : Subscriptions) (cs : List Command) : Subscriptions :=
  cs.foldl (fun subs c ↦ subs.after c.request) subs

theorem Follows.append {subs : Subscriptions} {cs : List Command} (h : Follows subs cs)
    {c : Command} (hproper : (subs.afterAll cs).Proper c.request)
    (hlast : cs = [] ∨ (subs.afterAll cs).count ≠ 0) : Follows subs (cs ++ [c]) := by
  induction cs generalizing subs with
  | nil => exact ⟨hproper, Or.inl rfl, trivial⟩
  | cons d cs ih =>
      obtain ⟨hd, hrest, hfollows⟩ := h
      have hcount : (subs.afterAll (d :: cs)).count ≠ 0 := hlast.resolve_left (by simp)
      refine ⟨hd, Or.inr ?_, ih hfollows hproper ?_⟩
      · cases cs with
        | nil => exact hcount
        | cons e cs => exact hrest.resolve_left (by simp)
      · exact Or.inr hcount

theorem afterAll_ordinary (subs : Subscriptions) {cs : List Command}
    (h : ∀ c ∈ cs, c.request = .ordinary) : subs.afterAll cs = subs := by
  induction cs with
  | nil => rfl
  | cons c cs ih =>
      have hc : subs.after c.request = subs := by rw [h c (by simp), Subscriptions.after]
      have hcs := ih fun d hd ↦ h d (by simp [hd])
      rw [Subscriptions.afterAll, List.foldl_cons, hc]
      exact hcs

namespace Session

/-- The replies under way are `regs` for regular callbacks and then `news` for
subscriptions, and the commands under way are `early` ones, which were issued
outside of subscribe mode, and then `late` ones. -/
structure Split (s : Session) (regs news : List ReplyTree) (early late : List Command) :
    Prop where
  replies : s.replies = regs ++ news
  sent : s.sent = early ++ late
  pending : s.ac.replies.length = regs.length + early.length
  ordinary : ∀ c ∈ early, c.request = .ordinary
  waiting : early ≠ [] → news = [] ∧ s.server.count = 0
  unsubscribed : s.ac.flags.subscribed = false → news = [] ∧ late = [] ∧ s.server.count = 0
  follows : Follows s.server late
  closing : Closing news (late = [] ∧ s.server.count = 0)
  nodup : s.server.Nodup
  monitoring : s.ac.flags.monitoring = false
  disconnecting : s.ac.flags.disconnecting = false

def Tidy (s : Session) : Prop := ∃ regs news early late, s.Split regs news early late

theorem Start.tidy {s : Session} (h : s.Start) : s.Tidy := by
  obtain ⟨cErr, onConnect, onDisconnect, rfl⟩ := h
  refine ⟨[], [], [], [], rfl, rfl, rfl, by simp, fun h ↦ (h rfl).elim, fun _ ↦ ⟨rfl, rfl, rfl⟩,
    trivial, ⟨by simp, by simp⟩, ?_, rfl, rfl⟩
  intro pattern
  cases pattern <;> exact List.nodup_nil

/-- A command for the server's subscribe mode joins the late ones. -/
theorem Split.push_late {s : Session} {regs news : List ReplyTree} {early late : List Command}
    (h : s.Split regs news early late) {c : Command}
    (hc : s.ac.flags.subscribed = true → s.ahead.count ≠ 0 ∧ s.ahead.Proper c.request)
    (hfirst : s.ac.flags.subscribed = false → s.server.Proper c.request)
    {ac : AsyncContext} (hreplies : ac.replies = s.ac.replies)
    (hsub : ac.flags.subscribed = true) (hmon : ac.flags.monitoring = s.ac.flags.monitoring)
    (hdis : ac.flags.disconnecting = s.ac.flags.disconnecting) :
    { s with ac := ac, sent := s.sent ++ [c] }.Split regs news early (late ++ [c]) := by
  have hahead : s.ahead = s.server.afterAll late := by
    have hearly := afterAll_ordinary s.server h.ordinary
    rw [ahead, h.sent, List.foldl_append]
    exact congrArg (fun subs ↦ subs.afterAll late) hearly
  rw [hahead] at hc
  have hmode : s.ac.flags.subscribed = true ∨ s.ac.flags.subscribed = false := by
    cases s.ac.flags.subscribed <;> simp
  refine ⟨h.replies, ?_, ?_, h.ordinary, h.waiting, ?_, ?_, ?_, h.nodup, hmon ▸ h.monitoring,
    hdis ▸ h.disconnecting⟩
  · rw [h.sent, List.append_assoc]
  · exact hreplies ▸ h.pending
  · intro hs
    exact absurd (hsub.symm.trans hs) (by decide)
  · rcases hmode with hs | hs
    · exact h.follows.append (hc hs).2 (Or.inr (hc hs).1)
    · have hlate := (h.unsubscribed hs).2.1
      subst hlate
      exact h.follows.append (hfirst hs) (Or.inl rfl)
  · refine ⟨h.closing.1, ?_⟩
    intro before r behind hsplit hr
    obtain ⟨-, hlate, hzero⟩ := h.closing.2 before r behind hsplit hr
    rcases hmode with hs | hs
    · subst hlate
      exact absurd hzero (hc hs).1
    · have hnews := (h.unsubscribed hs).1
      simp [hnews] at hsplit

/-- A regular command joins the early ones. -/
theorem Split.push_early {s : Session} {regs news : List ReplyTree} {early late : List Command}
    (h : s.Split regs news early late) {c : Command} (hc : c.request = .ordinary)
    (hsub : s.ac.flags.subscribed = false) {ac : AsyncContext} {cb : RedisCallback}
    (hreplies : ac.replies = s.ac.replies ++ [cb])
    (hmon : ac.flags.monitoring = s.ac.flags.monitoring)
    (hdis : ac.flags.disconnecting = s.ac.flags.disconnecting) :
    { s with ac := ac, sent := s.sent ++ [c] }.Split regs news (early ++ [c]) late := by
  obtain ⟨hnews, hlate, hzero⟩ := h.unsubscribed hsub
  refine ⟨h.replies, ?_, ?_, ?_, fun _ ↦ ⟨hnews, hzero⟩, fun _ ↦ ⟨hnews, hlate, hzero⟩, h.follows,
    h.closing, h.nodup, hmon ▸ h.monitoring, hdis ▸ h.disconnecting⟩
  · simp only [h.sent, hlate, List.append_nil]
  · simp only [hreplies, h.pending, List.length_append, List.length_singleton]
    omega
  · intro d hd
    rcases List.mem_append.mp hd with hd | hd
    · exact h.ordinary d hd
    · exact List.mem_singleton.mp hd ▸ hc

/-! ## Steps -/

/-- What the server takes a command for is in its name. -/
theorem request_cases (c : Command) :
    (∃ pattern, c.name.map tolower = pubsubWord pattern "subscribe" ∧ c.args ≠ [] ∧
      c.request = .subscribe pattern c.args) ∨
    (∃ pattern, c.name.map tolower = pubsubWord pattern "unsubscribe" ∧
      c.request = .unsubscribe pattern c.args) ∨
    c.request = .ordinary := by
  unfold Command.request
  simp only
  split
  · rename_i hword
    exact Or.inl ⟨false, hword.1, hword.2, rfl⟩
  · split
    · rename_i hword
      exact Or.inl ⟨true, hword.1, hword.2, rfl⟩
    · split
      · rename_i hword
        exact Or.inr (Or.inl ⟨false, hword, rfl⟩)
      · split
        · rename_i hword
          exact Or.inr (Or.inl ⟨true, hword, rfl⟩)
        · exact Or.inr (Or.inr rfl)

/-- The client takes a formatted command for what the server takes it for. -/
theorem commandKind_request {c : Command}
    (hlen : c.bytes.length < 2 ^ 31)
    (hord : c.request = .ordinary →
      commandKind c.bytes = some .regular) :
    commandKind c.bytes =
      some (match c.request with
        | .subscribe pattern names => .subscribe pattern names
        | .unsubscribe _ _ => .unsubscribe
        | .ordinary => .regular) := by
  have hargs : ∀ arg ∈ c.args, arg.length < 2 ^ 31 := by
    intro arg harg
    have hle : (bulk arg).length ≤ ((c.name :: c.args).flatMap bulk).length := by
      rw [List.flatMap_def]
      exact (List.sublist_flatten_of_mem (List.mem_map_of_mem (by simp [harg]))).length_le
    rw [Command.bytes, redisFormatCommandArgv, List.length_append] at hlen
    simp only [bulk, List.length_cons, List.length_append] at hle
    omega
  rcases request_cases c with ⟨pattern, hword, hne, hr⟩ | ⟨pattern, hword, hr⟩ | hr
  · rw [hr]
    exact commandKind_subscribe hword hne hargs
  · rw [hr]
    exact commandKind_unsubscribe hword
  · rw [hr]
    exact hord hr

theorem subscribeAll_fields (ac : AsyncContext) (pattern : Bool) (cb : RedisCallback)
    (names : List (List UInt8)) :
    (names.foldl (fun ac name ↦ ac.subscribeTo pattern cb name) ac).replies = ac.replies ∧
      (names.foldl (fun ac name ↦ ac.subscribeTo pattern cb name) ac).flags = ac.flags := by
  induction names generalizing ac with
  | nil => exact ⟨rfl, rfl⟩
  | cons name names ih =>
      obtain ⟨hreplies, hflags⟩ := ih (ac.subscribeTo pattern cb name)
      rw [List.foldl_cons, hreplies, hflags]
      cases pattern <;> exact ⟨rfl, rfl⟩

/-- What registering a callback does to the mode and the regular callbacks: in
subscribe mode, or on entering it, the latter stay as they are. -/
theorem registerCallback_fields {ac ac' : AsyncContext} {kind : CommandKind} {cb : RedisCallback}
    (hkind : kind ≠ .monitor) (h : ac.registerCallback kind cb = some ac') :
    ac'.flags.monitoring = ac.flags.monitoring ∧
      ac'.flags.disconnecting = ac.flags.disconnecting ∧
      (ac'.replies = ac.replies ∧ ac'.flags.subscribed = true ∧
          (ac.flags.subscribed = false → ∃ pattern names, kind = .subscribe pattern names) ∨
        kind = .regular ∧ ac.flags.subscribed = false ∧ ac'.replies = ac.replies ++ [cb]) := by
  cases kind with
  | subscribe pattern names =>
      rw [AsyncContext.registerCallback, Option.some.injEq] at h
      obtain ⟨hreplies, hflags⟩ := subscribeAll_fields
        { ac with flags := { ac.flags with subscribed := true } } pattern cb names
      have hmon := congrArg Flags.monitoring hflags
      have hdis := congrArg Flags.disconnecting hflags
      have hsub := congrArg Flags.subscribed hflags
      exact h ▸ ⟨hmon, hdis, Or.inl ⟨hreplies, hsub, fun _ ↦ ⟨pattern, names, rfl⟩⟩⟩
  | unsubscribe =>
      simp only [AsyncContext.registerCallback] at h
      split at h
      · rename_i hmode
        obtain rfl := Option.some.inj h
        exact ⟨rfl, rfl, Or.inl ⟨rfl, hmode, fun hs ↦ absurd (hmode.symm.trans hs) (by decide)⟩⟩
      · simp at h
  | monitor => exact (hkind rfl).elim
  | regular =>
      simp only [AsyncContext.registerCallback] at h
      split at h
      · rename_i hmode
        obtain rfl := Option.some.inj h
        exact ⟨rfl, rfl, Or.inl ⟨rfl, hmode, fun hs ↦ absurd (hmode.symm.trans hs) (by decide)⟩⟩
      · rename_i hmode
        rw [Bool.not_eq_true] at hmode
        obtain rfl := Option.some.inj h
        exact ⟨rfl, rfl, Or.inr ⟨rfl, hmode, rfl⟩⟩

theorem Split.issue {s s' : Session} {regs news : List ReplyTree} {early late : List Command}
    (h : s.Split regs news early late) {fn : Option ℕ} {privdata : ℕ} {c : Command}
    (hguard : s.Orderly (.issue fn privdata c)) (hissue : s.issue fn privdata c = some s') :
    s'.Tidy := by
  obtain ⟨hlen, hord, hsub⟩ := hguard
  have hkind := commandKind_request hlen hord
  generalize hk : (match c.request with
    | .subscribe pattern names => CommandKind.subscribe pattern names
    | .unsubscribe _ _ => .unsubscribe
    | .ordinary => .regular) = kind at hkind
  have hmonitor : kind ≠ .monitor := by
    rw [← hk]
    split <;> simp
  unfold Session.issue AsyncContext.asyncCommand at hissue
  rw [hkind] at hissue
  by_cases hclosing : s.ac.flags.closing = true
  · rw [if_pos hclosing] at hissue
    exact Option.some.inj hissue ▸ ⟨regs, news, early, late, h⟩
  · rw [if_neg hclosing, Option.map_some] at hissue
    cases hreg : s.ac.registerCallback kind ⟨fn, privdata⟩ with
    | none =>
        rw [hreg] at hissue
        exact Option.some.inj hissue ▸ ⟨regs, news, early, late, h⟩
    | some ac =>
        rw [hreg] at hissue
        obtain ⟨hmon, hdis, ⟨hreplies, hmode, hfirst⟩ | ⟨hkindreg, hmode, hreplies⟩⟩ :=
          registerCallback_fields hmonitor hreg
        · refine ⟨regs, news, early, late ++ [c], Option.some.inj hissue ▸ ?_⟩
          refine h.push_late hsub ?_ hreplies hmode hmon hdis
          intro hs
          obtain ⟨pattern, names, hsubscribe⟩ := hfirst hs
          rw [hsubscribe] at hk
          cases hr : c.request <;> simp_all [Subscriptions.Proper]
        · refine ⟨regs, news, early ++ [c], late, Option.some.inj hissue ▸ ?_⟩
          refine h.push_early ?_ hmode hreplies hmon hdis
          rw [hkindreg] at hk
          cases hr : c.request <;> simp_all

theorem Split.serve {s s' : Session} {regs news : List ReplyTree} {early late : List Command}
    (h : s.Split regs news early late) {answer : ReplyTree} {order : List (List UInt8)}
    (hserve : s.serve answer order = some s') : s'.Tidy := by
  unfold Session.serve at hserve
  cases early with
  | cons c early =>
      obtain ⟨hnews, hzero⟩ := h.waiting (by simp)
      have hc := h.ordinary c (by simp)
      have hafter : s.server.after c.request = s.server := by rw [hc, Subscriptions.after]
      rw [h.sent, List.cons_append] at hserve
      obtain ⟨replies, hans, hs'⟩ := Option.map_eq_some_iff.mp hserve
      rw [hc, answers, if_pos (Or.inl hzero), Option.some.injEq] at hans
      rw [hafter] at hs'
      subst hnews hs' hans
      refine ⟨regs ++ [answer], [], early, late, ?_, rfl, ?_,
        fun d hd ↦ h.ordinary d (by simp [hd]),
        fun _ ↦ ⟨rfl, hzero⟩, h.unsubscribed, h.follows, h.closing, h.nodup, h.monitoring,
        h.disconnecting⟩
      · simp only [h.replies, List.append_nil]
      · simp only [h.pending, List.length_append, List.length_cons, List.length_nil]
        omega
  | nil =>
      cases late with
      | nil => simp [h.sent] at hserve
      | cons c late =>
          obtain ⟨hproper, hlast, hfollows⟩ := h.follows
          rw [h.sent, List.nil_append] at hserve
          obtain ⟨replies, hans, rfl⟩ := Option.map_eq_some_iff.mp hserve
          have hnew := closing_answers h.nodup hproper hans
          refine ⟨regs, news ++ replies, [], late, ?_, rfl, h.pending, by simp,
            fun hne ↦ (hne rfl).elim, fun hs ↦ absurd (h.unsubscribed hs).2.1 (by simp), hfollows,
            ?_, h.nodup.after _, h.monitoring, h.disconnecting⟩
          · simp only [h.replies, List.append_assoc]
          · have hboth := h.closing.append (by simp) hnew
            exact ⟨hboth.1, fun before r behind hs hr ↦ by
              obtain ⟨hbehind, hzero⟩ := hboth.2 before r behind hs hr
              exact ⟨hbehind, hlast.resolve_right (fun hne ↦ hne hzero), hzero⟩⟩

theorem Split.publish {s s' : Session} {regs news : List ReplyTree} {early late : List Command}
    (h : s.Split regs news early late) {pattern : Bool} {name : List UInt8}
    {rest : List (List UInt8)} (hpub : s.publish pattern name rest = some s') : s'.Tidy := by
  unfold Session.publish at hpub
  split at hpub
  · rename_i hmem
    have hcount : s.server.count ≠ 0 := by
      have hpos := List.length_pos_of_mem hmem
      rw [s.server.count_eq pattern]
      omega
    obtain rfl := Option.some.inj hpub
    have hnew : Closing [message pattern name rest] (late = [] ∧ s.server.count = 0) :=
      Closing.singleton (wellFormed_message _ _ _) fun he ↦ absurd he (not_emptying_message _ _ _)
    refine ⟨regs, news ++ [message pattern name rest], early, late, ?_, h.sent, h.pending,
      h.ordinary,
      fun hne ↦ absurd (h.waiting hne).2 hcount, fun hs ↦ absurd (h.unsubscribed hs).2.2 hcount,
      h.follows, h.closing.append (fun he ↦ hcount he.2) hnew, h.nodup, h.monitoring,
      h.disconnecting⟩
    simp only [h.replies, List.append_assoc]
  · simp at hpub

theorem pickCallback_regular {ac : AsyncContext} {c : RedisCallback} {rest : List RedisCallback}
    (h : ac.replies = c :: rest) (cb : RedisCallback) (reply : ReplyTree) :
    ac.pickCallback cb reply = some (.run c { ac with replies := rest }) := by
  simp only [AsyncContext.pickCallback, AsyncContext.shiftReplies, h]

/-- What the lookup of a well-formed reply leaves as it is, and when it ends the
subscribe mode. -/
theorem getSubscribeCallback_wellFormed {r : ReplyTree} (h : WellFormed r) (ac : AsyncContext)
    (dstcb : RedisCallback) :
    ∃ cb ac', ac.getSubscribeCallback r dstcb = some (cb, ac') ∧ ac'.replies = ac.replies ∧
      ac'.flags.monitoring = ac.flags.monitoring ∧
      ac'.flags.disconnecting = ac.flags.disconnecting ∧
      (ac'.flags.subscribed = false → ac.flags.subscribed = false ∨ Emptying r) := by
  have hinvalid : ∃ cb ac', some (ac.shiftInvalid.getD (dstcb, ac)) = some (cb, ac') ∧
      ac'.replies = ac.replies ∧ ac'.flags = ac.flags := by
    unfold AsyncContext.shiftInvalid
    split
    · exact ⟨dstcb, ac, rfl, rfl, rfl⟩
    · exact ⟨_, _, rfl, rfl, rfl⟩
  match r, h with
  | .array (.string stype :: .string sname :: rest), h =>
      simp only [AsyncContext.getSubscribeCallback]
      cases hl : (ac.callbacks (AsyncContext.isPattern stype)).lookup sname with
      | none => exact ⟨dstcb, ac, rfl, rfl, rfl, rfl, Or.inl⟩
      | some cb =>
          by_cases hun : AsyncContext.isUnsubscribe stype = true
          · obtain ⟨remaining, more, rfl⟩ := h hun
            simp only [hun, if_true]
            refine ⟨cb, _, rfl, ?_⟩
            by_cases hzero : remaining = 0
            · subst hzero
              unfold AsyncContext.unsubscribed
              split <;> exact ⟨rfl, rfl, rfl, fun _ ↦ Or.inr ⟨stype, _, more, rfl, hun⟩⟩
            · unfold AsyncContext.unsubscribed
              simp only [if_neg hzero]
              split <;> exact ⟨rfl, rfl, rfl, Or.inl⟩
          · simp only [hun, Bool.false_eq_true, if_false]
            exact ⟨cb, ac, rfl, rfl, rfl, rfl, Or.inl⟩
  | .status line, _ | .error line, _ | .integer value, _ | .string bytes, _ | .nil, _ =>
      obtain ⟨cb, ac', hget, hreplies, hflags⟩ := hinvalid
      exact ⟨cb, ac', hget, hreplies, hflags ▸ rfl, hflags ▸ rfl, fun hs ↦ Or.inl (hflags ▸ hs)⟩

/-- A reply that finds no regular callback is news for a subscription. -/
theorem Split.news_of_empty {s : Session} {regs news : List ReplyTree} {early late : List Command}
    (h : s.Split regs news early late) (hempty : s.ac.replies = []) {reply : ReplyTree}
    {rest : List ReplyTree} (hs : s.replies = reply :: rest) :
    regs = [] ∧ early = [] ∧ news = reply :: rest ∧ s.ac.flags.subscribed = true := by
  have hpending := h.pending
  rw [hempty, List.length_nil] at hpending
  have hregs : regs = [] := List.length_eq_zero_iff.mp (by omega)
  have hearly : early = [] := List.length_eq_zero_iff.mp (by omega)
  have hnews : news = reply :: rest := by
    rw [← hs, h.replies, hregs, List.nil_append]
  refine ⟨hregs, hearly, hnews, ?_⟩
  cases hmode : s.ac.flags.subscribed with
  | true => rfl
  | false =>
      have hnil := (h.unsubscribed hmode).1
      simp [hnews] at hnil

theorem Tidy.safe {s : Session} (h : s.Tidy) : s.Safe := by
  obtain ⟨regs, news, early, late, h⟩ := h
  intro reply rest hs
  cases hreplies : s.ac.replies with
  | cons c cbs =>
      rw [pickCallback_regular hreplies]
      exact ⟨by simp, by simp⟩
  | nil =>
      obtain ⟨-, -, hnews, hmode⟩ := h.news_of_empty hreplies hs
      refine ⟨?_, fun _ ↦ Or.inr (Or.inl hmode)⟩
      have hw := h.closing.1 reply (by simp [hnews])
      obtain ⟨cb, ac', hget, -⟩ := getSubscribeCallback_wellFormed hw s.ac s.cb
      simp only [AsyncContext.pickCallback, AsyncContext.shiftReplies, hreplies, hmode, if_true,
        hget, Option.map_some]
      split <;> simp

theorem Split.deliver {s s' : Session} {regs news : List ReplyTree} {early late : List Command}
    (h : s.Split regs news early late) (hdeliver : s.deliver = some s') : s'.Tidy := by
  unfold Session.deliver at hdeliver
  cases hs : s.replies with
  | nil => simp [hs] at hdeliver
  | cons reply rest =>
      rw [hs] at hdeliver
      cases hreplies : s.ac.replies with
      | cons c cbs =>
          simp only [pickCallback_regular hreplies, Option.some.injEq] at hdeliver
          have hpending := h.pending
          rw [hreplies, List.length_cons] at hpending
          cases regs with
          | nil =>
              have hearly : early ≠ [] := by
                rintro rfl
                simp at hpending
              have hnil := h.replies
              rw [(h.waiting hearly).1, hs] at hnil
              simp at hnil
          | cons r regs =>
              have hrest := h.replies
              rw [hs, List.cons_append, List.cons.injEq] at hrest
              refine ⟨regs, news, early, late, hdeliver ▸ ?_⟩
              refine ⟨hrest.2, h.sent, ?_, h.ordinary, h.waiting, h.unsubscribed, h.follows,
                h.closing, h.nodup, h.monitoring, h.disconnecting⟩
              simp only [List.length_cons] at hpending
              simp only
              omega
      | nil =>
          obtain ⟨rfl, rfl, rfl, hmode⟩ := h.news_of_empty hreplies hs
          have hw := h.closing.1 reply (by simp)
          obtain ⟨cb, ac', hget, hreplies', hmon, hdis, hleft⟩ :=
            getSubscribeCallback_wellFormed hw s.ac s.cb
          have hpick : s.ac.pickCallback s.cb reply = some (.run cb ac') ∨
              ∃ ac', s.ac.pickCallback s.cb reply = some (.disconnect ac') := by
            simp only [AsyncContext.pickCallback, AsyncContext.shiftReplies, hreplies, hmode,
              if_true, hget, Option.map_some]
            split
            · exact Or.inr ⟨_, rfl⟩
            · exact Or.inl rfl
          rcases hpick with hpick | ⟨ac'', hpick⟩
          · simp only [hpick, Option.some.injEq] at hdeliver
            refine ⟨[], rest, [], late, hdeliver ▸ ?_⟩
            have hbehind : ∀ before r behind, rest = before ++ r :: behind → Emptying r →
                behind = [] ∧ late = [] ∧ s.server.count = 0 := by
              intro before r behind hrest hr
              exact h.closing.2 (reply :: before) r behind (by rw [hrest, List.cons_append]) hr
            refine ⟨rfl, h.sent, by simp [hreplies', hreplies], by simp,
              fun hne ↦ (hne rfl).elim, ?_,
              h.follows, ⟨fun r hr ↦ h.closing.1 r (by simp [hr]), hbehind⟩, h.nodup,
              hmon.trans h.monitoring, hdis.trans h.disconnecting⟩
            intro hunsub
            have hempty := (hleft hunsub).resolve_left (by simp [hmode])
            exact h.closing.2 [] reply rest rfl hempty
          · simp [hpick] at hdeliver

theorem Split.endCall {s s' : Session} {regs news : List ReplyTree} {early late : List Command}
    (h : s.Split regs news early late) (hend : s.endCall = some s') : s'.Tidy := by
  obtain ⟨ac, hac, rfl⟩ := Option.map_eq_some_iff.mp hend
  simp only [AsyncContext.endOfReplies, h.disconnecting, h.monitoring, Bool.false_eq_true,
    false_and, if_false, Option.some.injEq] at hac
  exact hac ▸ ⟨regs, news, early, late, h.replies, h.sent, h.pending, h.ordinary, h.waiting,
    h.unsubscribed, h.follows, h.closing, h.nodup, h.monitoring, h.disconnecting⟩

theorem Tidy.step {s s' : Session} {a : Action} (h : s.Tidy) (hguard : s.Orderly a)
    (hstep : s.step a = some s') : s'.Tidy := by
  obtain ⟨regs, news, early, late, h⟩ := h
  cases a with
  | issue fn privdata c => exact h.issue hguard hstep
  | serve answer order => exact h.serve hstep
  | publish pattern name rest => exact h.publish hstep
  | deliver => exact h.deliver hstep
  | endCall => exact h.endCall hstep

/-- No assertion fails in a session whose commands all meet the condition. -/
theorem orderly_safe {s : Session} (h : machine.Reach Orderly s) : s.Safe := by
  have htidy : s.Tidy := by
    refine h.invariant ?_ ?_
    · intro s h0
      exact Start.tidy h0
    · intro s a s' hs hguard hstep
      exact hs.step hguard hstep
  exact htidy.safe

/-- The session of a fresh context. -/
def fresh : Session :=
  { ac := .redisAsyncInitialize none false false
    cb := .null
    sent := []
    server := .empty
    replies := [] }

theorem fresh_start : fresh.Start := ⟨none, false, false, rfl⟩

/-- One of two channels is left, and the confirmation is still under way. -/
theorem orderly_safe_unsubscribe :
    ∃ s, machine.run fresh
      [.issue (some 1) 0 (.ofWords "SUBSCRIBE" ["a", "b"]),
        .issue none 0 (.ofWords "UNSUBSCRIBE" ["a"]), .serve .nil [], .serve .nil [],
        .deliver, .deliver] = some s ∧ s.replies.length = 1 ∧ s.Safe := by
  obtain ⟨s, hrun, hlen⟩ := machine.run_spec fresh
    [.issue (some 1) 0 (.ofWords "SUBSCRIBE" ["a", "b"]),
        .issue none 0 (.ofWords "UNSUBSCRIBE" ["a"]), .serve .nil [], .serve .nil [],
        .deliver, .deliver] (fun s ↦ decide (s.replies.length = 1)) (by decide)
  exact ⟨s, hrun, of_decide_eq_true hlen,
    orderly_safe (.run (.start fresh_start) (by decide) hrun)⟩

/-- A channel is subscribed to after the last one was given up, but before the
client knows: the confirmation finds a context that is not subscribed. -/
theorem resubscribe_unsafe :
    ∃ s, machine.run fresh
      [.issue (some 1) 0 (.ofWords "SUBSCRIBE" ["a"]),
        .issue none 0 (.ofWords "UNSUBSCRIBE" ["a"]),
        .issue (some 2) 0 (.ofWords "SUBSCRIBE" ["b"]),
        .serve .nil [], .serve .nil [], .serve .nil [], .deliver, .deliver] = some s ∧
      machine.Reachable s ∧ ¬s.Safe := by
  obtain ⟨s, hrun, hfail⟩ := machine.run_spec fresh
    [.issue (some 1) 0 (.ofWords "SUBSCRIBE" ["a"]),
        .issue none 0 (.ofWords "UNSUBSCRIBE" ["a"]),
        .issue (some 2) 0 (.ofWords "SUBSCRIBE" ["b"]),
        .serve .nil [], .serve .nil [], .serve .nil [], .deliver, .deliver]
    (fun s ↦ s.replies.any fun reply ↦
      s.replies.length = 1 ∧ (s.ac.pickCallback s.cb reply).isNone) (by decide)
  refine ⟨s, hrun, .run (.start fresh_start) hrun, ?_⟩
  intro hsafe
  obtain ⟨reply, hmem, hfail⟩ := List.any_eq_true.mp hfail
  obtain ⟨hone, hnone⟩ := of_decide_eq_true hfail
  obtain ⟨r, hr⟩ := List.length_eq_one_iff.mp hone
  rw [hr, List.mem_singleton] at hmem
  exact (hsafe reply [] (hmem ▸ hr)).1 (Option.isNone_iff_eq_none.mp hnone)

end Session

end MuxHiredis
