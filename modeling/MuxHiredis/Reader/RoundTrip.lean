import MuxHiredis.Reader.Descent

/-!
# Reading back an encoded reply

The recursive parser reads the encoding of a tree as that tree, by induction on
the tree; and a fresh reader does what the parser does.
-/

namespace MuxHiredis

open Resumable

namespace ReplyTree

/-! ## Header lines -/

theorem parseLine_line {α : Type} {line : List UInt8} (h : ¬crlf <:+: line)
    (rest : List UInt8) (next : ℕ → List UInt8 → Parsed α) :
    parseLine (line ++ crlf ++ rest) next = next line.length rest := by
  have hdrop : (line ++ crlf ++ rest).drop (line.length + 2) = rest :=
    List.drop_left' (by simp [crlf])
  simp only [parseLine, seekNewline_line h, hdrop]

theorem readLongLong_line {z : ℤ} (h : -2 ^ 63 < z) (h' : z < 2 ^ 63) (rest : List UInt8) :
    readLongLong (signedDecimal z ++ crlf ++ rest) = z := by
  simpa [crlf] using readLongLong_signedDecimal h h' (lf :: rest)

theorem parseLine_number {α : Type} (z : ℤ) (rest : List UInt8)
    (next : ℕ → List UInt8 → Parsed α) :
    parseLine (signedDecimal z ++ crlf ++ rest) next = next (signedDecimal z).length rest :=
  parseLine_line (crlf_not_infix_signedDecimal z) rest next

/-! ## Trees -/

theorem parseScalar_status {line : List UInt8} (h : ¬crlf <:+: line) (rest : List UInt8) :
    parseScalar 43 (line ++ crlf ++ rest) = .reply (.status line) rest := by
  have htake : (line ++ crlf ++ rest).take line.length = line := by simp
  rw [parseScalar, if_neg (by decide), if_pos rfl, parseLine_line h, htake]

theorem parseScalar_error {line : List UInt8} (h : ¬crlf <:+: line) (rest : List UInt8) :
    parseScalar 45 (line ++ crlf ++ rest) = .reply (.error line) rest := by
  have htake : (line ++ crlf ++ rest).take line.length = line := by simp
  rw [parseScalar, if_pos rfl, parseLine_line h, htake]

theorem parseScalar_integer {z : ℤ} (h : -2 ^ 63 < z) (h' : z < 2 ^ 63) (rest : List UInt8) :
    parseScalar 58 (signedDecimal z ++ crlf ++ rest) = .reply (.integer z) rest := by
  rw [parseScalar, if_neg (by decide), if_neg (by decide), if_pos rfl, parseLine_number,
    readLongLong_line h h']

theorem parseScalar_nil (rest : List UInt8) :
    parseScalar 36 (signedDecimal (-1) ++ crlf ++ rest) = .reply .nil rest := by
  rw [parseScalar, if_neg (by decide), if_neg (by decide), if_neg (by decide), if_pos rfl,
    parseLine_number, readLongLong_line (by decide) (by decide), if_pos (by decide)]

theorem parseScalar_string {bytes : List UInt8} (h : bytes.length < 2 ^ 63)
    (rest : List UInt8) :
    parseScalar 36 (signedDecimal bytes.length ++ crlf ++ (bytes ++ crlf ++ rest)) =
      .reply (.string bytes) rest := by
  have hneg : ¬((bytes.length : ℤ) < 0) := by omega
  have hfit : bytes.length + 2 ≤ (bytes ++ crlf ++ rest).length := by
    simp only [List.length_append, crlf, List.length_cons, List.length_nil]
    omega
  have htake : (bytes ++ crlf ++ rest).take bytes.length = bytes := by simp
  have hdrop : (bytes ++ crlf ++ rest).drop (bytes.length + 2) = rest :=
    List.drop_left' (by simp [crlf])
  rw [parseScalar, if_neg (by decide), if_neg (by decide), if_neg (by decide), if_pos rfl,
    parseLine_number, readLongLong_line (by omega) (by omega), if_neg hneg,
    Int.toNat_natCast, parseBytes, if_pos hfit, htake, hdrop]

theorem parseArray_encode {item : List UInt8 → Parsed ReplyTree} {ts : List ReplyTree}
    (hcount : ts.length < 2 ^ 31) {xs rest : List UInt8}
    (hmany : parseMany item ts.length xs = .reply ts rest) :
    parseArray item (signedDecimal ts.length ++ crlf ++ xs) = .reply (.array ts) rest := by
  have hne : ¬((ts.length : ℤ) = -1) := by omega
  have hrange : (0 : ℤ) ≤ ts.length ∧ (ts.length : ℤ) < 2 ^ 31 := by omega
  rw [parseArray, parseLine_number, readLongLong_line (by omega) (by omega), if_neg hne,
    if_pos hrange, Int.toNat_natCast, hmany]
  rfl

mutual

/-- A tree that may stand at depth `d` is read where arrays can still be nested
`room` deep. -/
theorem parseItem_encode : (t : ReplyTree) → {room d : ℕ} → room + d = 8 → t.Sendable d →
    t.encode.length < 2 ^ 31 → (rest : List UInt8) →
    parseItem room (t.encode ++ rest) = .reply t rest
  | .status line, room, _, _, ht, _, rest => by
      rw [encode, List.cons_append]
      cases room <;> exact (if_neg (by decide)).trans (parseScalar_status ht rest)
  | .error line, room, _, _, ht, _, rest => by
      rw [encode, List.cons_append]
      cases room <;> exact (if_neg (by decide)).trans (parseScalar_error ht rest)
  | .integer value, room, _, _, ht, _, rest => by
      rw [encode, List.cons_append]
      cases room <;> exact (if_neg (by decide)).trans (parseScalar_integer ht.1 ht.2 rest)
  | .string bytes, room, _, _, _, hlen, rest => by
      have hbytes : bytes.length < 2 ^ 63 := by
        simp only [encode, List.length_cons, List.length_append] at hlen
        omega
      have hscalar := parseScalar_string hbytes rest
      simp only [← List.append_assoc] at hscalar
      rw [encode, List.cons_append]
      cases room <;> exact (if_neg (by decide)).trans hscalar
  | .nil, room, _, _, _, _, rest => by
      rw [encode, List.cons_append]
      cases room <;> exact (if_neg (by decide)).trans (parseScalar_nil rest)
  | .array ts, room, d, hroom, ht, hlen, rest => by
      obtain ⟨hdeep, hcount, hall⟩ := ht
      obtain ⟨room, rfl⟩ : ∃ m, room = m + 1 := ⟨room - 1, by omega⟩
      have hwithin : (encodeAll ts).length < 2 ^ 31 := by
        simp only [encode, List.length_cons, List.length_append] at hlen
        omega
      have hroom' : room + (d + 1) = 8 := by omega
      have hmany := parseMany_encodeAll ts hroom' hall hwithin rest
      rw [encode, List.cons_append, List.append_assoc]
      exact (if_pos rfl).trans (parseArray_encode hcount hmany)

theorem parseMany_encodeAll : (ts : List ReplyTree) → {room d : ℕ} → room + d = 8 →
    SendableAll d ts → (encodeAll ts).length < 2 ^ 31 → (rest : List UInt8) →
    parseMany (parseItem room) ts.length (encodeAll ts ++ rest) = .reply ts rest
  | [], _, _, _, _, _, _ => rfl
  | t :: ts, room, d, hroom, ht, hlen, rest => by
      simp only [encodeAll, List.length_append] at hlen
      have hhead := parseItem_encode t hroom ht.1 (by omega) (encodeAll ts ++ rest)
      have htail := parseMany_encodeAll ts hroom ht.2 (by omega) rest
      rw [encodeAll, List.append_assoc, List.length_cons, parseMany, hhead]
      simp only [Parsed.bind, htail]

end

theorem length_encode_le_encodeAll {t : ReplyTree} {ts : List ReplyTree} (ht : t ∈ ts) :
    t.encode.length ≤ (encodeAll ts).length := by
  induction ts with
  | nil => cases ht
  | cons u ts ih =>
      rw [encodeAll, List.length_append]
      rcases List.mem_cons.mp ht with rfl | ht
      · exact Nat.le_add_right _ _
      · exact (ih ht).trans (Nat.le_add_left _ _)

theorem parse_encode {t : ReplyTree} (ht : t.Sendable 0) (hlen : t.encode.length < 2 ^ 31)
    (rest : List UInt8) : parse (t.encode ++ rest) = .reply t rest :=
  parseItem_encode t rfl ht hlen rest

end ReplyTree

namespace ReadState

/-- One reply after the other, by induction on the replies. -/
theorem drain_encodeEach (ts : List ReplyTree) (ht : ReplyTree.SendableAll 0 ts)
    (hlen : ∀ t ∈ ts, t.encode.length < 2 ^ 31) {s : ReadState Heap} (hs : s.Ready) :
    ∃ out s', drain (replyStep defaultFunctions) s (ReplyTree.encodeAll ts) =
        (out, .waiting s' []) ∧ s'.Ready ∧
      List.Forall₂ (fun t p ↦ ReplyTree.Represents p.2.cells p.1 t) ts out := by
  have hlaw := replyStep_lawful defaultFunctions
  induction ts generalizing s with
  | nil =>
      have htype : s.cur.type = none := congrArg RedisReadTask.type hs.cur
      have hwait : s.replyStep defaultFunctions [] = .wait s [] :=
        replyStep_wait (by simp only [itemStep, if_pos htype])
      refine ⟨[], s, ?_, hs, .nil⟩
      rw [ReplyTree.encodeAll, drain_eq hlaw, hwait]
  | cons t ts ih =>
      obtain ⟨hfirst, hrest⟩ := List.forall_mem_cons.mp hlen
      have hparse := replyStep_parse hs (t.encode ++ ReplyTree.encodeAll ts)
      rw [ReplyTree.parse_encode ht.1 hfirst] at hparse
      obtain ⟨obj, store, s', hstep, htree, -, hs'⟩ := hparse
      obtain ⟨out, s'', hdrain, hs'', hall⟩ := ih ht.2 hrest hs'
      refine ⟨(obj, store) :: out, s'', ?_, hs'', .cons htree hall⟩
      rw [ReplyTree.encodeAll, drain_eq hlaw, hstep]
      simp only [hdrain]

theorem drain_encodeAll (ts : List ReplyTree) (ht : ReplyTree.SendableAll 0 ts)
    (hlen : (ReplyTree.encodeAll ts).length < 2 ^ 31) {s : ReadState Heap} (hs : s.Ready) :
    ∃ out s', drain (replyStep defaultFunctions) s (ReplyTree.encodeAll ts) =
        (out, .waiting s' []) ∧ s'.Ready ∧
      List.Forall₂ (fun t p ↦ ReplyTree.Represents p.2.cells p.1 t) ts out :=
  drain_encodeEach ts ht
    (fun _ hmem ↦ (ReplyTree.length_encode_le_encodeAll hmem).trans_lt hlen) hs

end ReadState

namespace RedisReader

/-- The first call of `redisReaderGetReply` on a fresh reader that was fed the
encoding of `t` and then `s` hands over a reply whose objects are `t` and no
other tree, and leaves `s` unread. -/
theorem getReply_encode {h : Heap} (hq : h.Quiet) (t : ReplyTree) (ht : t.Sendable 0)
    (s : List UInt8) (hlen : (t.encode ++ s).length < 2 ^ 31) :
    ∃ obj r', ((create defaultFunctions h).feed (t.encode ++ s)).2.getReply =
        (.ok, some obj, r') ∧
      (∀ t', ReplyTree.Represents r'.store.cells obj t' ↔ t' = t) ∧
      r'.store.fault = false ∧ r'.unread = s := by
  obtain ⟨hlive, hstate, hunread⟩ := feed_live (create_live defaultFunctions h) (t.encode ++ s)
  generalize hr : ((create defaultFunctions h).feed (t.encode ++ s)).2 = r at hlive hstate hunread ⊢
  have hfn : r.fn = defaultFunctions := by
    rw [← hr, feed_fn]
    rfl
  have hstart : r.start = (create defaultFunctions h).start := by rw [hstate]
  have hwf : r.start.Wf := hstart ▸ create_start_wf defaultFunctions h
  have hready : r.start.Ready := hstart ▸ ⟨rfl, rfl, hq⟩
  have hempty : (create defaultFunctions h).unread = [] := rfl
  rw [hempty, List.nil_append] at hunread
  have hparse := ReadState.replyStep_parse hready r.unread
  rw [hunread, ReplyTree.parse_encode ht (by rw [List.length_append] at hlen; omega) s] at hparse
  obtain ⟨obj, store, s', hstep, htree, hfault, -⟩ := hparse
  have hget := getReply_eq hlive hwf (start_ridx_nonneg hwf)
  rw [hfn, hunread, hstep] at hget
  obtain ⟨r', hr', hstore, ⟨-, -, hrest⟩, -⟩ := hget
  exact ⟨obj, r', hr', hstore ▸ htree.iff_eq, hstore ▸ hfault, hrest⟩

/-- A nested reply, followed by the beginning of another one. -/
theorem getReply_encode_nested :
    ∃ obj r', ((create defaultFunctions Heap.empty).feed
        ((ReplyTree.array [.array [.integer (-5), .nil], .string [13, 10], .array []]).encode ++
          [43, 79])).2.getReply = (.ok, some obj, r') ∧
      (∀ t', ReplyTree.Represents r'.store.cells obj t' ↔
        t' = .array [.array [.integer (-5), .nil], .string [13, 10], .array []]) ∧
      r'.store.fault = false ∧ r'.unread = [43, 79] :=
  getReply_encode ⟨rfl, fun _ ↦ rfl⟩ _
    (by simp [ReplyTree.Sendable, ReplyTree.SendableAll]) [43, 79] (by decide)

end RedisReader

end MuxHiredis
