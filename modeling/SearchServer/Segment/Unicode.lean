import SearchServer.Lib.Tiling
import SearchServer.Lib.Utf8

/-!
# Decoding a text into runes

The segmenter `cppjieba` works on the characters of a text (`cppjieba/Unicode.hpp`). It decodes UTF-8
without all checks: the first byte tells the number of bytes, and of the others only six bits are
read. Decoding fails when the text ends inside of a character, or at a byte from `0xf8` on. Offsets
are natural numbers; the texts are shorter than 2^32 bytes.

* `decodeRunesInString_eq`: the runes are laid out over the bytes of the text without a gap.
* `glyphs_append`: what follows a text does not change how the text is decoded.
* `getWordFromRunes_eq`: the word of a range of runes has the bytes of these runes.

**Theorem (`glyphs_utf8`).** A UTF-8 text is decoded to the code points of its characters.
-/

namespace SearchServer

abbrev Rune := UInt32

/-- A rune, and the number of its bytes. -/
structure RuneStrLite where
  rune : Rune
  len : ℕ
deriving DecidableEq

/-- A rune of a text, with the position and the number of its bytes. -/
structure RuneStr where
  rune : Rune
  offset : ℕ
  len : ℕ
deriving DecidableEq

/-- `[left, right]`, as positions in the runes of the text. -/
abbrev WordRange := IndexRange

/-- `(uint8_t)(str[i])`, as a rune. -/
def byteAt (str : Bytes) (i : ℕ) : Rune := (str.getD i 0).toUInt32

def decodeRuneInString (str : Bytes) : RuneStrLite :=
  match str with
  | [] => ⟨0, 0⟩
  | c :: _ =>
    if c &&& 0x80 = 0 then ⟨byteAt str 0 &&& 0x7f, 1⟩
    else if c ≤ 0xdf ∧ 1 < str.length then
      ⟨((byteAt str 0 &&& 0x1f) <<< 6) ||| (byteAt str 1 &&& 0x3f), 2⟩
    else if c ≤ 0xef ∧ 2 < str.length then
      ⟨((((byteAt str 0 &&& 0x0f) <<< 6) ||| (byteAt str 1 &&& 0x3f)) <<< 6) |||
        (byteAt str 2 &&& 0x3f), 3⟩
    else if c ≤ 0xf7 ∧ 3 < str.length then
      ⟨((((((byteAt str 0 &&& 0x07) <<< 6) ||| (byteAt str 1 &&& 0x3f)) <<< 6) |||
        (byteAt str 2 &&& 0x3f)) <<< 6) ||| (byteAt str 3 &&& 0x3f), 4⟩
    else ⟨0, 0⟩

/-- `DecodeRunesInString`, from offset `i` on. -/
def decodeRunesFrom (i : ℕ) (s : Bytes) : Option (List RuneStr) :=
  if _hs : s = [] then some []
  else
    let rp := decodeRuneInString s
    if _hlen : rp.len = 0 then none
    else (decodeRunesFrom (i + rp.len) (s.drop rp.len)).map (⟨rp.rune, i, rp.len⟩ :: ·)
termination_by s.length
decreasing_by
  have hpos : 0 < s.length := List.length_pos_iff.mpr (by assumption)
  rw [List.length_drop]
  exact Nat.sub_lt hpos (Nat.pos_of_ne_zero (by assumption))

def decodeRunesInString (s : Bytes) : Option (List RuneStr) := decodeRunesFrom 0 s

def isSingleWord (str : Bytes) : Bool := (decodeRuneInString str).len = str.length

/-- The string that `GetWordFromRunes` returns. There is none for a position that is not in the
array. -/
def getWordFromRunes (s : Bytes) (runes : List RuneStr) (wr : WordRange) : Option Bytes := do
  let left ← runes[wr.left]?
  let right ← runes[wr.right]?
  return (s.drop left.offset).take (right.offset - left.offset + right.len)

/-! ## One rune -/

/-- A rune has at most the bytes that are left. -/
theorem decodeRuneInString_len_le (s : Bytes) : (decodeRuneInString s).len ≤ s.length := by
  cases s with
  | nil => exact le_rfl
  | cons c s =>
    rw [decodeRuneInString]
    split_ifs with h₁ h₂ h₃ h₄
    · simp
    · exact h₂.2
    · exact h₃.2
    · exact h₄.2
    · exact Nat.zero_le _

theorem byteAt_append {s : Bytes} {i : ℕ} (hi : i < s.length) (t : Bytes) :
    byteAt (s ++ t) i = byteAt s i := by
  rw [byteAt, byteAt, List.getD_append _ _ _ _ hi]

/-- A rune that was decoded does not change when bytes are added. -/
theorem decodeRuneInString_append {s : Bytes} (h : (decodeRuneInString s).len ≠ 0) (t : Bytes) :
    decodeRuneInString (s ++ t) = decodeRuneInString s := by
  cases s with
  | nil => exact absurd rfl h
  | cons c s =>
    have hlen : (c :: s).length ≤ (c :: (s ++ t)).length := by simp
    have hb : ∀ i < (c :: s).length, byteAt (c :: (s ++ t)) i = byteAt (c :: s) i :=
      fun i hi => byteAt_append hi t
    rw [List.cons_append]
    -- A branch that was skipped for want of bytes is followed only by branches that need more.
    unfold decodeRuneInString at h ⊢
    dsimp only at h ⊢
    by_cases h₁ : c &&& 0x80 = 0
    · rw [if_pos h₁, if_pos h₁, hb 0 (by simp)]
    · rw [if_neg h₁] at h ⊢
      rw [if_neg h₁]
      by_cases h₂ : c ≤ 0xdf ∧ 1 < (c :: s).length
      · rw [if_pos h₂, if_pos ⟨h₂.1, h₂.2.trans_le hlen⟩, hb 0 (by simp), hb 1 h₂.2]
      · rw [if_neg h₂] at h ⊢
        by_cases h₃ : c ≤ 0xef ∧ 2 < (c :: s).length
        · have hdf : ¬ c ≤ 0xdf := fun hc => h₂ ⟨hc, by omega⟩
          rw [if_neg fun hc => hdf hc.1, if_pos h₃, if_pos ⟨h₃.1, h₃.2.trans_le hlen⟩,
            hb 0 (by simp), hb 1 (by omega), hb 2 h₃.2]
        · rw [if_neg h₃] at h ⊢
          by_cases h₄ : c ≤ 0xf7 ∧ 3 < (c :: s).length
          · have hdf : ¬ c ≤ 0xdf := fun hc => h₂ ⟨hc, by omega⟩
            have hef : ¬ c ≤ 0xef := fun hc => h₃ ⟨hc, by omega⟩
            rw [if_neg fun hc => hdf hc.1, if_neg fun hc => hef hc.1, if_pos h₄,
              if_pos ⟨h₄.1, h₄.2.trans_le hlen⟩, hb 0 (by simp), hb 1 (by omega),
              hb 2 (by omega), hb 3 h₄.2]
          · rw [if_neg h₄] at h
            exact absurd rfl h

/-! ## Glyphs

The runes of a text, each with its bytes. -/

/-- A rune and its bytes. -/
abbrev Glyph := Rune × Bytes

def glyphs (s : Bytes) : Option (List Glyph) :=
  if _hs : s = [] then some []
  else
    let rp := decodeRuneInString s
    if _hlen : rp.len = 0 then none
    else (glyphs (s.drop rp.len)).map ((rp.rune, s.take rp.len) :: ·)
termination_by s.length
decreasing_by
  have hpos : 0 < s.length := List.length_pos_iff.mpr (by assumption)
  rw [List.length_drop]
  exact Nat.sub_lt hpos (Nat.pos_of_ne_zero (by assumption))

theorem glyphs_nil : glyphs [] = some [] := by
  rw [glyphs, dif_pos rfl]

/-- Lay out glyphs from an offset on. -/
def layOut : ℕ → List Glyph → List RuneStr
  | _, [] => []
  | i, g :: gs => ⟨g.1, i, g.2.length⟩ :: layOut (i + g.2.length) gs

theorem map_rune_layOut (i : ℕ) (gs : List Glyph) :
    (layOut i gs).map RuneStr.rune = gs.map Prod.fst := by
  induction gs generalizing i with
  | nil => rfl
  | cons g gs ih => exact congrArg (g.1 :: ·) (ih _)

/-- **Decoding** lays out the glyphs. -/
theorem decodeRunesFrom_eq (i : ℕ) (s : Bytes) :
    decodeRunesFrom i s = (glyphs s).map (layOut i) := by
  induction hn : s.length using Nat.strong_induction_on generalizing i s with
  | _ n ih =>
    rw [decodeRunesFrom, glyphs]
    by_cases hs : s = []
    · rw [dif_pos hs, dif_pos hs]
      rfl
    · rw [dif_neg hs, dif_neg hs]
      dsimp only
      by_cases hlen : (decodeRuneInString s).len = 0
      · rw [dif_pos hlen, dif_pos hlen]
        rfl
      · have hle := decodeRuneInString_len_le s
        have htake : (s.take (decodeRuneInString s).len).length = (decodeRuneInString s).len := by
          rw [List.length_take, Nat.min_eq_left hle]
        have hlt : (s.drop (decodeRuneInString s).len).length < n := by
          rw [List.length_drop]
          omega
        rw [dif_neg hlen, dif_neg hlen, ih _ hlt _ _ rfl, Option.map_map, Option.map_map]
        refine congrArg (fun f => Option.map f _) (funext fun gs => ?_)
        show _ = layOut i ((_, s.take _) :: gs)
        rw [layOut, htake]
        rfl

theorem decodeRunesInString_eq (s : Bytes) : decodeRunesInString s = (glyphs s).map (layOut 0) :=
  decodeRunesFrom_eq 0 s

theorem flatten_glyphs {s : Bytes} {gs : List Glyph} (h : glyphs s = some gs) :
    (gs.map Prod.snd).flatten = s ∧ ∀ g ∈ gs, g.2 ≠ [] := by
  induction hn : s.length using Nat.strong_induction_on generalizing s gs with
  | _ n ih =>
    rw [glyphs] at h
    by_cases hs : s = []
    · rw [dif_pos hs] at h
      obtain rfl := Option.some.inj h
      exact ⟨hs.symm, by simp⟩
    · rw [dif_neg hs] at h
      dsimp only at h
      by_cases hlen : (decodeRuneInString s).len = 0
      · rw [dif_pos hlen] at h
        cases h
      · rw [dif_neg hlen] at h
        obtain ⟨rest, hrest, rfl⟩ := Option.map_eq_some_iff.mp h
        have hpos : 0 < s.length := List.length_pos_iff.mpr hs
        have hlt : (s.drop (decodeRuneInString s).len).length < n := by
          rw [List.length_drop]
          omega
        obtain ⟨hflat, hne⟩ := ih _ hlt hrest rfl
        refine ⟨?_, ?_⟩
        · rw [List.map_cons, List.flatten_cons, hflat]
          exact List.take_append_drop _ s
        · intro g hg
          rcases List.mem_cons.mp hg with rfl | hg
          · simpa using ⟨hlen, hs⟩
          · exact hne g hg

/-- **A text in front of another** is decoded as it is alone. -/
theorem glyphs_append {s : Bytes} {gs : List Glyph} (h : glyphs s = some gs) (t : Bytes) :
    glyphs (s ++ t) = (glyphs t).map (gs ++ ·) := by
  induction hn : s.length using Nat.strong_induction_on generalizing s gs with
  | _ n ih =>
    rw [glyphs] at h
    by_cases hs : s = []
    · rw [dif_pos hs] at h
      obtain rfl := Option.some.inj h
      rw [hs]
      show glyphs t = (glyphs t).map fun gs => gs
      rw [Option.map_id_fun']
      rfl
    · rw [dif_neg hs] at h
      dsimp only at h
      by_cases hlen : (decodeRuneInString s).len = 0
      · rw [dif_pos hlen] at h
        cases h
      · rw [dif_neg hlen] at h
        obtain ⟨rest, hrest, rfl⟩ := Option.map_eq_some_iff.mp h
        have hle := decodeRuneInString_len_le s
        have hpos : 0 < s.length := List.length_pos_iff.mpr hs
        have hlt : (s.drop (decodeRuneInString s).len).length < n := by
          rw [List.length_drop]
          omega
        have hne : s ++ t ≠ [] := fun h => hs (List.append_eq_nil_iff.mp h).1
        rw [glyphs, dif_neg hne]
        dsimp only
        rw [decodeRuneInString_append hlen, dif_neg hlen, List.drop_append_of_le_length hle,
          List.take_append_of_le_length hle, ih _ hlt hrest rfl, Option.map_map]
        rfl

/-! ## The word of a range -/

theorem getElem?_layOut (i : ℕ) (gs : List Glyph) (k : ℕ) :
    (layOut i gs)[k]? =
      gs[k]?.map fun g => ⟨g.1, i + ((gs.take k).map Prod.snd).flatten.length, g.2.length⟩ := by
  induction gs generalizing i k with
  | nil => rfl
  | cons g gs ih =>
    cases k with
    | zero => rfl
    | succ k =>
      rw [layOut, List.getElem?_cons_succ, ih, List.getElem?_cons_succ, List.take_succ_cons,
        List.map_cons, List.flatten_cons, List.length_append, Nat.add_assoc]

/-- The bytes of the glyphs of a range. -/
def wordOf (gs : List Glyph) (wr : WordRange) : Bytes := ((wr.slice gs).map Prod.snd).flatten

/-- **The word of a range** has the bytes of its glyphs. -/
theorem getWordFromRunes_eq {s : Bytes} {gs : List Glyph} (h : glyphs s = some gs) {wr : WordRange}
    (hle : wr.left ≤ wr.right) (hlt : wr.right < gs.length) :
    getWordFromRunes s (layOut 0 gs) wr = some (wordOf gs wr) := by
  have hflat := (flatten_glyphs h).1
  -- The bytes before the word, and those of the word.
  set front := ((gs.take wr.left).map Prod.snd).flatten with hfront
  have hsplit : s = front ++ (wordOf gs wr ++ ((gs.drop (wr.right + 1)).map Prod.snd).flatten) := by
    have hslice : gs = gs.take wr.left ++ (wr.slice gs ++ gs.drop (wr.right + 1)) := by
      have hdrop : gs.drop (wr.right + 1) =
          (gs.drop wr.left).drop (wr.right + 1 - wr.left) := by
        rw [List.drop_drop]
        congr 1
        omega
      rw [IndexRange.slice, hdrop, List.take_append_drop, List.take_append_drop]
    rw [← hflat]
    conv_lhs => rw [hslice]
    rw [List.map_append, List.flatten_append, List.map_append, List.flatten_append]
    rfl
  have hword : ((gs.take wr.right).map Prod.snd).flatten.length - front.length +
      (gs[wr.right].2).length = (wordOf gs wr).length := by
    have htake : gs.take (wr.right + 1) = gs.take wr.left ++ wr.slice gs := by
      rw [IndexRange.slice, ← List.take_add]
      congr 1
      omega
    have hend := congrArg (fun l => (List.map Prod.snd l).flatten.length) htake
    have hpre : ((gs.take wr.right).map Prod.snd).flatten.length =
        front.length + (((gs.drop wr.left).take (wr.right - wr.left)).map Prod.snd).flatten.length := by
      have hsum : gs.take wr.right = gs.take wr.left ++ (gs.drop wr.left).take (wr.right - wr.left) := by
        rw [← List.take_add]
        congr 1
        omega
      rw [hsum, List.map_append, List.flatten_append, List.length_append]
    rw [← List.take_append_getElem hlt] at hend
    simp only [List.map_append, List.flatten_append, List.length_append] at hend
    simp only [List.map_cons, List.map_nil, List.flatten_cons, List.flatten_nil,
      List.append_nil] at hend
    rw [← hfront] at hend
    rw [wordOf]
    omega
  rw [getWordFromRunes, getElem?_layOut, getElem?_layOut,
    List.getElem?_eq_getElem (Nat.lt_of_le_of_lt hle hlt), List.getElem?_eq_getElem hlt]
  simp only [Option.map_some, Nat.zero_add, Option.bind_eq_bind, Option.bind_some,
    Option.pure_def, Option.some.injEq]
  rw [← hfront, hword, hsplit, List.drop_left, List.take_left]

/-! ## UTF-8 -/

/-- A step of decoding: six more bits. -/
theorem toNat_shiftLeft_or {a b : Rune} {x y : ℕ} (ha : a.toNat = x) (hb : b.toNat = y)
    (hx : x < 2 ^ 26) : ((a <<< 6) ||| (b &&& 0x3f)).toNat = x * 64 + y % 64 := by
  have hlow : b.toNat &&& 63 = y % 64 := by rw [hb, Nat.and_two_pow_sub_one_eq_mod y 6]
  have hhigh : a.toNat <<< 6 % 2 ^ 32 = x <<< 6 := by
    rw [ha, Nat.shiftLeft_eq]
    omega
  rw [UInt32.toNat_or, UInt32.toNat_shiftLeft, UInt32.toNat_and]
  show (a.toNat <<< 6 % 2 ^ 32) ||| (b.toNat &&& 63) = _
  rw [hlow, hhigh, ← Nat.shiftLeft_add_eq_or_of_lt (Nat.mod_lt _ (by norm_num)), Nat.shiftLeft_eq]

/-- The first byte, with its bits for the length masked off. -/
theorem toNat_and_mask (a : Rune) (k : ℕ) (hk : k ≤ 7) :
    (a &&& UInt32.ofNat (2 ^ k - 1)).toNat = a.toNat % 2 ^ k := by
  have hmask : (2 ^ k - 1) % 2 ^ 32 = 2 ^ k - 1 := by
    have : 2 ^ k ≤ 2 ^ 7 := Nat.pow_le_pow_right (by norm_num) hk
    omega
  rw [UInt32.toNat_and, UInt32.toNat_ofNat', hmask, Nat.and_two_pow_sub_one_eq_mod]

theorem and_high_eq_zero_iff (x : UInt8) : x &&& 0x80 = 0 ↔ x.toNat < 128 := by
  revert x
  decide +kernel

/-- **A character** is decoded to its code point. -/
theorem decodeRuneInString_utf8 (c : Char) (t : Bytes) :
    decodeRuneInString (String.utf8EncodeChar c ++ t) =
      ⟨c.val, (String.utf8EncodeChar c).length⟩ := by
  have hlt : c.val.toNat < 1114112 := by
    rcases c.valid with h | h
    · omega
    · exact h.2
  have hbyte : ∀ n : ℕ, n < 256 → (UInt8.ofNat n).toNat = n := fun n hn => by
    rw [UInt8.toNat_ofNat', Nat.mod_eq_of_lt hn]
  have hrune : ∀ n : ℕ, n < 256 → ((UInt8.ofNat n).toUInt32).toNat = n := fun n hn => by
    rw [UInt8.toNat_toUInt32, hbyte n hn]
  have hle : ∀ n : ℕ, n < 256 → ∀ k : UInt8, UInt8.ofNat n ≤ k ↔ n ≤ k.toNat := fun n hn k => by
    rw [UInt8.le_iff_toNat_le, hbyte n hn]
  have hhigh : ∀ n : ℕ, n < 256 → 128 ≤ n → ¬ UInt8.ofNat n &&& 0x80 = 0 := fun n hn hge => by
    rw [and_high_eq_zero_iff, hbyte n hn]
    omega
  set v := c.val.toNat with hv
  unfold String.utf8EncodeChar
  rw [← hv]
  dsimp only
  -- One case for each number of bytes.
  split_ifs with h₁ h₂ h₃
  · have hfirst : UInt8.ofNat v &&& 0x80 = 0 := by
      rw [and_high_eq_zero_iff, hbyte v (by omega)]
      omega
    rw [List.cons_append, decodeRuneInString, if_pos hfirst]
    refine congrArg (RuneStrLite.mk · 1) (UInt32.toNat_inj.mp ?_)
    have hmask := toNat_and_mask (UInt8.ofNat v).toUInt32 7 le_rfl
    rw [hrune v (by omega)] at hmask
    exact hmask.trans (Nat.mod_eq_of_lt (by omega))
  · have hfirst := (hle (v / 64 % 32 + 192) (by omega) 0xdf).mpr (by show _ ≤ 223; omega)
    rw [List.cons_append, decodeRuneInString, if_neg (hhigh _ (by omega) (by omega)),
      if_pos ⟨hfirst, by simp⟩]
    refine congrArg (RuneStrLite.mk · 2) (UInt32.toNat_inj.mp ?_)
    have hmask := toNat_and_mask (UInt8.ofNat (v / 64 % 32 + 192)).toUInt32 5 (by norm_num)
    rw [hrune _ (by omega)] at hmask
    refine (toNat_shiftLeft_or hmask (hrune (v % 64 + 128) (by omega)) (by omega)).trans ?_
    omega
  · have hdf : ¬ (UInt8.ofNat (v / 4096 % 16 + 224) ≤ 0xdf) := fun h => by
      have : v / 4096 % 16 + 224 ≤ 223 := (hle _ (by omega) 0xdf).mp h
      omega
    have hfirst := (hle (v / 4096 % 16 + 224) (by omega) 0xef).mpr (by show _ ≤ 239; omega)
    rw [List.cons_append, decodeRuneInString, if_neg (hhigh _ (by omega) (by omega)),
      if_neg fun h => hdf h.1, if_pos ⟨hfirst, by simp⟩]
    refine congrArg (RuneStrLite.mk · 3) (UInt32.toNat_inj.mp ?_)
    have hmask := toNat_and_mask (UInt8.ofNat (v / 4096 % 16 + 224)).toUInt32 4 (by norm_num)
    rw [hrune _ (by omega)] at hmask
    have htwo := toNat_shiftLeft_or hmask (hrune (v / 64 % 64 + 128) (by omega)) (by omega)
    refine (toNat_shiftLeft_or htwo (hrune (v % 64 + 128) (by omega)) (by omega)).trans ?_
    omega
  · have hdf : ¬ (UInt8.ofNat (v / 262144 % 8 + 240) ≤ 0xdf) := fun h => by
      have : v / 262144 % 8 + 240 ≤ 223 := (hle _ (by omega) 0xdf).mp h
      omega
    have hef : ¬ (UInt8.ofNat (v / 262144 % 8 + 240) ≤ 0xef) := fun h => by
      have : v / 262144 % 8 + 240 ≤ 239 := (hle _ (by omega) 0xef).mp h
      omega
    have hfirst := (hle (v / 262144 % 8 + 240) (by omega) 0xf7).mpr (by show _ ≤ 247; omega)
    rw [List.cons_append, decodeRuneInString, if_neg (hhigh _ (by omega) (by omega)),
      if_neg fun h => hdf h.1, if_neg fun h => hef h.1, if_pos ⟨hfirst, by simp⟩]
    refine congrArg (RuneStrLite.mk · 4) (UInt32.toNat_inj.mp ?_)
    have hmask := toNat_and_mask (UInt8.ofNat (v / 262144 % 8 + 240)).toUInt32 3 (by norm_num)
    rw [hrune _ (by omega)] at hmask
    have htwo := toNat_shiftLeft_or hmask (hrune (v / 4096 % 64 + 128) (by omega)) (by omega)
    have hthree := toNat_shiftLeft_or htwo (hrune (v / 64 % 64 + 128) (by omega)) (by omega)
    refine (toNat_shiftLeft_or hthree (hrune (v % 64 + 128) (by omega)) (by omega)).trans ?_
    omega

/-- The glyphs of a UTF-8 text. -/
def charGlyphs (chars : List Char) : List Glyph :=
  chars.map fun c => (c.val, String.utf8EncodeChar c)

/-- **A UTF-8 text** is decoded to the code points of its characters. -/
theorem glyphs_utf8 (chars : List Char) :
    glyphs (chars.flatMap String.utf8EncodeChar) = some (charGlyphs chars) := by
  induction chars with
  | nil => exact glyphs_nil
  | cons c chars ih =>
    have hpos : 0 < (String.utf8EncodeChar c).length := by
      rw [String.length_utf8EncodeChar]
      exact c.utf8Size_pos
    have hne : String.utf8EncodeChar c ++ chars.flatMap String.utf8EncodeChar ≠ [] := by
      simp
    rw [List.flatMap_cons, glyphs, dif_neg hne]
    dsimp only
    rw [decodeRuneInString_utf8, dif_neg hpos.ne', List.drop_left, List.take_left, ih]
    rfl

end SearchServer
