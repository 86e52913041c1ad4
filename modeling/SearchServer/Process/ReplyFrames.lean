import SearchServer.Lib.Framing
import SearchServer.Process.Server

/-!
# The replies of a connection

`doTaskThread` sends a result as its size in decimal, a newline and the result (`replyMessage`). A
connection carries these frames one after the other, and the results themselves have digits and
newlines in them.

**Theorem (`replies_uniquely_decodable`).** Results shorter than 2^31 bytes are determined by the
bytes on the connection, no frame is a proper prefix of another, and a client that reads digits up
to the first newline and then that many bytes gets back the results.

From 2^31 bytes on the size is a negative `int`, and the reader fails at the sign.
-/

namespace SearchServer

namespace Server

def FitsInt (ret : Bytes) : Prop := ret.length < 2 ^ 31

instance (ret : Bytes) : Decidable (FitsInt ret) := inferInstanceAs (Decidable (_ < _))

/-- A client: the bytes up to the first newline are the size, and that many bytes the result. -/
def readReply (s : Bytes) : Option (Bytes × Bytes) :=
  let size := s.takeWhile (· ≠ LF)
  match s.dropWhile (· ≠ LF) with
  | [] => none
  | _ :: rest =>
    if size ≠ [] ∧ size.all isdigit ∧ digitsValue size ≤ rest.length then
      some (rest.take (digitsValue size), rest.drop (digitsValue size))
    else none

theorem replyMessage_of_fits {ret : Bytes} (h : FitsInt ret) :
    replyMessage ret = digits ret.length ++ LF :: ret := by
  have hsize : decimal (wrapInt ret.length) = digits ret.length := by
    rw [wrapInt_natCast h, decimal, if_neg (by omega), Int.natAbs_natCast]
  rw [replyMessage, hsize]
  rfl

theorem replyMessage_ne_nil (ret : Bytes) : replyMessage ret ≠ [] := by
  simp [replyMessage, lit]

/-- The size ends at the first newline, as no digit is one. -/
theorem ne_lf_of_mem_digits {n : ℕ} {c : UInt8} (h : c ∈ digits n) : c ≠ LF := by
  intro hc
  have hdigit := isdigit_of_mem_digits h
  rw [hc] at hdigit
  cases hdigit

theorem readReply_line {size rest : Bytes} (h : LF ∉ size) :
    readReply (size ++ LF :: rest) =
      if size ≠ [] ∧ size.all isdigit ∧ digitsValue size ≤ rest.length then
        some (rest.take (digitsValue size), rest.drop (digitsValue size))
      else none := by
  have hall : ∀ c ∈ size, decide (c ≠ LF) = true := fun c hc =>
    decide_eq_true fun heq => h (heq ▸ hc)
  have htake : (size ++ LF :: rest).takeWhile (· ≠ LF) = size := by
    rw [List.takeWhile_append_of_pos hall]
    simp
  have hdrop : (size ++ LF :: rest).dropWhile (· ≠ LF) = LF :: rest := by
    rw [List.dropWhile_append_of_pos hall]
    simp
  rw [readReply, hdrop, htake]

/-- One frame, with whatever follows it. -/
theorem decodes_replyMessage : Decodes FitsInt replyMessage readReply := by
  intro ret hret r
  have hlf : LF ∉ digits ret.length := fun h => ne_lf_of_mem_digits h rfl
  have hcond : digits ret.length ≠ [] ∧ (digits ret.length).all isdigit ∧
      digitsValue (digits ret.length) ≤ (ret ++ r).length := by
    refine ⟨digits_ne_nil _, List.all_eq_true.mpr fun c hc => isdigit_of_mem_digits hc, ?_⟩
    rw [digitsValue_digits, List.length_append]
    omega
  rw [replyMessage_of_fits hret, List.append_assoc, List.cons_append, readReply_line hlf,
    if_pos hcond, digitsValue_digits, List.take_left, List.drop_left]

/-- **The replies are uniquely decodable.** -/
theorem replies_uniquely_decodable {as bs : List Bytes} (has : ∀ a ∈ as, FitsInt a)
    (hbs : ∀ b ∈ bs, FitsInt b) :
    (as.flatMap replyMessage = bs.flatMap replyMessage → as = bs) ∧
    (∀ a ∈ as, ∀ b ∈ bs, replyMessage a <+: replyMessage b → replyMessage a = replyMessage b) ∧
    decodeAll readReply (as.flatMap replyMessage) = some as := by
  have hne : ∀ a, FitsInt a → replyMessage a ≠ [] := fun a _ => replyMessage_ne_nil a
  refine ⟨?_, ?_, ?_⟩
  · intro heq
    exact decodes_replyMessage.flatMap_inj hne has hbs heq
  · intro a ha b hb hpre
    rw [decodes_replyMessage.eq_of_prefix (has a ha) (hbs b hb) hpre]
  · exact decodes_replyMessage.decodeAll_flatMap hne has

/-- Results that look like frames themselves: one with the frames of two others. -/
theorem replies_like_frames :
    [lit "2\n\n\n0\n"].flatMap replyMessage ≠ [lit "\n\n", lit ""].flatMap replyMessage ∧
    decodeAll readReply ([lit "2\n\n\n0\n"].flatMap replyMessage) = some [lit "2\n\n\n0\n"] := by
  have has : ∀ a ∈ [lit "2\n\n\n0\n"], FitsInt a := by decide
  have hbs : ∀ b ∈ [lit "\n\n", lit ""], FitsInt b := by decide
  obtain ⟨hinj, -, hread⟩ := replies_uniquely_decodable has hbs
  exact ⟨fun heq => absurd (hinj heq) (by decide), hread⟩

end Server

end SearchServer
