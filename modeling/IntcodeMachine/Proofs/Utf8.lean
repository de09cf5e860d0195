import Mathlib.Tactic.SplitIfs
import IntcodeMachine.Proofs.Outcomes
import IntcodeMachine.Text.Utf8

/-!
The decoder of UTF-8 inverts the encoding of texts, and it refuses all bytes
that encode no text. A lead byte tells how many bytes follow it, and it allows
exactly those which complete it to the encoding of a character: no long form,
no surrogate, no code point that does not exist.
-/

namespace IntcodeMachine.Text

variable {bytes tail rest : List UInt8} {text : List Char} {byte lead : UInt8}
  {p : Pending} {code offset : Nat} {c : Char}

/-- The bytes of a text in UTF-8. -/
def encodeUtf8 (text : List Char) : List UInt8 :=
  text.flatMap String.utf8EncodeChar

theorem isValidChar_toNat (c : Char) :
    c.toNat < 0xD800 ∨ 0xDFFF < c.toNat ∧ c.toNat < 0x110000 :=
  c.valid

/-- The bytes of a code point as numbers: six of its bits in each byte but the
first. -/
def codeBytes (code : Nat) : List Nat :=
  if code < 0x80 then [code]
  else if code < 0x800 then [0xC0 + code / 64, 0x80 + code % 64]
  else if code < 0x10000 then
    [0xE0 + code / 4096, 0x80 + code / 64 % 64, 0x80 + code % 64]
  else
    [0xF0 + code / 262144, 0x80 + code / 4096 % 64, 0x80 + code / 64 % 64,
      0x80 + code % 64]

theorem map_toNat_utf8EncodeChar (c : Char) :
    (String.utf8EncodeChar c).map UInt8.toNat = codeBytes c.toNat := by
  have hvalid := isValidChar_toNat c
  have hcode : c.val.toNat = c.toNat := rfl
  rw [String.utf8EncodeChar.eq_1, hcode, codeBytes]
  generalize c.toNat = n at hvalid
  split_ifs <;>
    simp only [List.map_cons, List.map_nil, UInt8.toNat_ofNat', List.cons.injEq,
      and_true] <;>
    omega

/-- A byte that may come next. -/
def Pending.Admits (p : Pending) (byte : UInt8) : Prop :=
  p.low ≤ byte.toNat ∧ byte.toNat ≤ p.high

/-- The bytes that complete a character, and its code point. -/
inductive Pending.Completes : Pending → List UInt8 → Nat → Prop where
  | last {p : Pending} {byte : UInt8} : p.Admits byte → p.needed ≤ 1 →
      Completes p [byte] (p.extend byte.toNat)
  | more {p : Pending} {byte : UInt8} {tail : List UInt8} {code : Nat} :
      p.Admits byte → 1 < p.needed →
      Completes ⟨p.first, p.taken + 1, p.needed - 1, 0x80, 0xBF,
        p.extend byte.toNat⟩ tail code →
      Completes p (byte :: tail) code

/-- A lead byte and the character that it opens, of two, three or four bytes.
Four of the lead bytes hold the next byte to a range of its own. -/
inductive Pending.Opens (lead : Nat) : Pending → Prop where
  | two : 0xC2 ≤ lead → lead < 0xE0 →
      Opens lead ⟨lead, 1, 1, 0x80, 0xBF, lead - 0xC0⟩
  | three : 0xE0 ≤ lead → lead < 0xF0 →
      Opens lead ⟨lead, 1, 2, if lead = 0xE0 then 0xA0 else 0x80,
        if lead = 0xED then 0x9F else 0xBF, lead - 0xE0⟩
  | four : 0xF0 ≤ lead → lead < 0xF5 →
      Opens lead ⟨lead, 1, 3, if lead = 0xF0 then 0x90 else 0x80,
        if lead = 0xF4 then 0x8F else 0xBF, lead - 0xF0⟩

theorem Pending.ofLead?_of_opens {lead : Nat} (h : Opens lead p) :
    ofLead? lead = some p := by
  cases h with
  | two hlow hhigh => rw [ofLead?, if_neg (by omega), if_pos hhigh]
  | three hlow hhigh =>
      rw [ofLead?, if_neg (by omega), if_neg (by omega)]
      by_cases hE0 : lead = 0xE0
      · subst hE0
        rfl
      by_cases hED : lead = 0xED
      · subst hED
        rfl
      rw [if_neg hE0, if_neg hED, if_pos hhigh, if_neg hE0, if_neg hED]
  | four hlow hhigh =>
      rw [ofLead?, if_neg (by omega), if_neg (by omega), if_neg (by omega),
        if_neg (by omega), if_neg (by omega)]
      by_cases hF0 : lead = 0xF0
      · subst hF0
        rfl
      by_cases hF4 : lead = 0xF4
      · subst hF4
        rfl
      rw [if_neg hF0, if_pos (by omega), if_neg hF0, if_neg hF4]

theorem Pending.exists_opens {lead : Nat} (hlow : 0xC2 ≤ lead)
    (hhigh : lead < 0xF5) : ∃ p, Opens lead p := by
  by_cases htwo : lead < 0xE0
  · exact ⟨_, .two hlow htwo⟩
  by_cases hthree : lead < 0xF0
  · exact ⟨_, .three (Nat.not_lt.mp htwo) hthree⟩
  · exact ⟨_, .four (Nat.not_lt.mp hthree) hhigh⟩

/-- Other bytes are no lead bytes. -/
theorem Pending.ofLead?_eq_none {lead : Nat}
    (h : ¬ (0xC2 ≤ lead ∧ lead < 0xF5)) : ofLead? lead = none := by
  by_cases hlow : lead < 0xC2
  · rw [ofLead?, if_pos hlow]
  · rw [ofLead?, if_neg hlow, if_neg (by omega), if_neg (by omega),
      if_neg (by omega), if_neg (by omega), if_neg (by omega),
      if_neg (by omega), if_neg (by omega)]

theorem Pending.ofLead?_eq_some_iff {lead : Nat} :
    ofLead? lead = some p ↔ Opens lead p := by
  refine ⟨?_, ofLead?_of_opens⟩
  intro h
  by_cases hrange : 0xC2 ≤ lead ∧ lead < 0xF5
  · obtain ⟨q, hopens⟩ := exists_opens hrange.1 hrange.2
    rw [ofLead?_of_opens hopens] at h
    cases h
    exact hopens
  · rw [ofLead?_eq_none hrange] at h
    cases h

namespace Pending

/-- Each continuation byte adds six bits. -/
theorem extend_eq (p : Pending) (byte : Nat) :
    p.extend byte = p.bits * 64 + (byte - 0x80) := rfl

theorem completes_last_iff (h : p.needed = 1) :
    p.Completes tail code ↔
      ∃ byte, tail = [byte] ∧ p.Admits byte ∧
        code = p.bits * 64 + (byte.toNat - 0x80) := by
  constructor
  · intro hc
    cases hc with
    | @last _ byte hadmits _ =>
        refine ⟨byte, rfl, hadmits, ?_⟩
        rw [extend_eq]
    | more _ hmore _ => omega
  · rintro ⟨byte, rfl, hadmits, hcode⟩
    rw [← extend_eq p] at hcode
    rw [hcode]
    exact .last hadmits (Nat.le_of_eq h)

theorem completes_more_iff {needed : Nat} (h : p.needed = needed + 2) :
    p.Completes tail code ↔
      ∃ byte later, tail = byte :: later ∧ p.Admits byte ∧
        Completes ⟨p.first, p.taken + 1, needed + 1, 0x80, 0xBF,
          p.extend byte.toNat⟩ later code := by
  have hneeded : p.needed - 1 = needed + 1 := by omega
  constructor
  · intro hc
    cases hc with
    | last _ hlast => omega
    | @more _ byte later _ hadmits _ hlater =>
        rw [hneeded] at hlater
        exact ⟨byte, later, rfl, hadmits, hlater⟩
  · rintro ⟨byte, later, rfl, hadmits, hlater⟩
    refine .more hadmits (by omega) ?_
    rw [hneeded]
    exact hlater

end Pending

theorem utf8EncodeChar_eq_iff : String.utf8EncodeChar c = bytes ↔
    codeBytes c.toNat = bytes.map UInt8.toNat := by
  rw [← map_toNat_utf8EncodeChar, List.map_inj_right]
  exact fun _ _ => UInt8.toNat_inj.mp

/-- The encoding of a character is its lead byte and bytes that complete it. -/
theorem exists_completes_of_encode (hlead : 0x80 ≤ lead.toNat)
    (h : String.utf8EncodeChar c = lead :: tail) :
    ∃ p, Pending.Opens lead.toNat p ∧ p.Completes tail c.toNat := by
  have hvalid := isValidChar_toNat c
  rw [utf8EncodeChar_eq_iff, List.map_cons] at h
  unfold codeBytes at h
  split_ifs at h with hone htwo hthree
  all_goals obtain ⟨hfirst, hrest⟩ := List.cons.inj h
  · omega
  · obtain ⟨b, rfl, hb⟩ := List.map_eq_singleton_iff.mp hrest.symm
    refine ⟨_, .two (by omega) (by omega),
      (Pending.completes_last_iff rfl).mpr ⟨b, rfl, ?_, ?_⟩⟩
    · constructor <;> simp only <;> omega
    · simp only
      omega
  · obtain ⟨b, _, rfl, hb, hlater⟩ := List.map_eq_cons_iff.mp hrest.symm
    obtain ⟨d, rfl, hd⟩ := List.map_eq_singleton_iff.mp hlater
    refine ⟨_, .three (by omega) (by omega),
      (Pending.completes_more_iff rfl).mpr ⟨b, [d], rfl, ?_,
        (Pending.completes_last_iff rfl).mpr ⟨d, rfl, ?_, ?_⟩⟩⟩
    · constructor <;> simp only <;> split <;> omega
    · constructor <;> simp only <;> omega
    · simp only [Pending.extend_eq]
      omega
  · obtain ⟨b, _, rfl, hb, hlater⟩ := List.map_eq_cons_iff.mp hrest.symm
    obtain ⟨d, _, rfl, hd, hlast⟩ := List.map_eq_cons_iff.mp hlater
    obtain ⟨e, rfl, he⟩ := List.map_eq_singleton_iff.mp hlast
    refine ⟨_, .four (by omega) (by omega),
      (Pending.completes_more_iff rfl).mpr ⟨b, [d, e], rfl, ?_,
        (Pending.completes_more_iff rfl).mpr ⟨d, [e], rfl, ?_,
          (Pending.completes_last_iff rfl).mpr ⟨e, rfl, ?_, ?_⟩⟩⟩⟩
    · constructor <;> simp only <;> split <;> omega
    · constructor <;> simp only <;> omega
    · constructor <;> simp only <;> omega
    · simp only [Pending.extend_eq]
      omega

/-- The bytes of a code point that is one of a character encode that. -/
theorem exists_encode_of_codeBytes
    (hvalid : code < 0xD800 ∨ 0xDFFF < code ∧ code < 0x110000)
    (h : codeBytes code = bytes.map UInt8.toNat) :
    ∃ c : Char, c.toNat = code ∧ String.utf8EncodeChar c = bytes :=
  ⟨Char.ofNatAux code hvalid, rfl, utf8EncodeChar_eq_iff.mpr h⟩

/-- A lead byte with bytes that complete it encodes a character. -/
theorem exists_encode_of_completes (hp : Pending.Opens lead.toNat p)
    (h : p.Completes tail code) :
    ∃ c : Char, c.toNat = code ∧ String.utf8EncodeChar c = lead :: tail := by
  cases hp with
  | two =>
      obtain ⟨b, rfl, ⟨hlow, hhigh⟩, hcode⟩ :=
        (Pending.completes_last_iff rfl).mp h
      simp only at hlow hhigh hcode
      apply exists_encode_of_codeBytes (by omega)
      rw [codeBytes, if_neg (by omega), if_pos (by omega)]
      simp only [List.map_cons, List.map_nil, List.cons.injEq, and_true]
      omega
  | three =>
      obtain ⟨b, _, rfl, ⟨hlow, hhigh⟩, hlater⟩ :=
        (Pending.completes_more_iff rfl).mp h
      obtain ⟨d, rfl, ⟨hlow', hhigh'⟩, hcode⟩ :=
        (Pending.completes_last_iff rfl).mp hlater
      simp only [Pending.extend_eq] at hlow hhigh hlow' hhigh' hcode
      have hrange : 0x800 ≤ code ∧ code < 0x10000 ∧
          (code < 0xD800 ∨ 0xDFFF < code) := by
        split_ifs at hlow hhigh <;> omega
      have hnext : 0x80 ≤ b.toNat ∧ b.toNat ≤ 0xBF := by
        split_ifs at hlow hhigh <;> omega
      clear hlow hhigh
      apply exists_encode_of_codeBytes (by omega)
      rw [codeBytes, if_neg (by omega), if_neg (by omega), if_pos (by omega)]
      simp only [List.map_cons, List.map_nil, List.cons.injEq, and_true]
      omega
  | four =>
      obtain ⟨b, _, rfl, ⟨hlow, hhigh⟩, hlater⟩ :=
        (Pending.completes_more_iff rfl).mp h
      obtain ⟨d, _, rfl, ⟨hlow', hhigh'⟩, hlast⟩ :=
        (Pending.completes_more_iff rfl).mp hlater
      obtain ⟨e, rfl, ⟨hlow'', hhigh''⟩, hcode⟩ :=
        (Pending.completes_last_iff rfl).mp hlast
      simp only [Pending.extend_eq]
        at hlow hhigh hlow' hhigh' hlow'' hhigh'' hcode
      have hrange : 0x10000 ≤ code ∧ code < 0x110000 := by
        split_ifs at hlow hhigh <;> omega
      have hnext : 0x80 ≤ b.toNat ∧ b.toNat ≤ 0xBF := by
        split_ifs at hlow hhigh <;> omega
      clear hlow hhigh
      apply exists_encode_of_codeBytes (by omega)
      rw [codeBytes, if_neg (by omega), if_neg (by omega), if_neg (by omega)]
      simp only [List.map_cons, List.map_nil, List.cons.injEq, and_true]
      omega

theorem decodeFrom_of_completes (h : p.Completes tail code) (offset : Nat)
    (rest : List UInt8) :
    decodeFrom offset (some p) (tail ++ rest) =
      (Char.ofNat code :: ·) <$>
        decodeFrom (offset + tail.length) none rest := by
  induction h generalizing offset with
  | @last p byte hadmits hlast =>
      have hrange : ¬ (byte.toNat < p.low ∨ p.high < byte.toNat) := by
        rw [not_or, Nat.not_lt, Nat.not_lt]
        exact hadmits
      rw [List.singleton_append, decodeFrom, if_neg hrange, if_pos hlast]
      rfl
  | @more p byte tail code hadmits hmore _ ih =>
      have hrange : ¬ (byte.toNat < p.low ∨ p.high < byte.toNat) := by
        rw [not_or, Nat.not_lt, Nat.not_lt]
        exact hadmits
      rw [List.cons_append, decodeFrom, if_neg hrange,
        if_neg (Nat.not_le.mpr hmore), ih, List.length_cons]
      congr 2
      omega

/-- An open character is decoded only with bytes that complete it. -/
theorem exists_completes_of_decodeFrom
    (h : decodeFrom offset (some p) bytes = .ok text) :
    ∃ tail rest code, p.Completes tail code ∧ bytes = tail ++ rest := by
  induction bytes generalizing offset p with
  | nil => cases h
  | cons byte bytes ih =>
      rw [decodeFrom] at h
      split at h
      · cases h
      · next hrange =>
          rw [not_or, Nat.not_lt, Nat.not_lt] at hrange
          split at h
          · next hlast =>
              exact ⟨[byte], bytes, _, .last hrange hlast, rfl⟩
          · next hmore =>
              obtain ⟨tail, rest, code, hcompletes, rfl⟩ := ih h
              exact ⟨byte :: tail, rest, code,
                .more hrange (Nat.not_le.mp hmore) hcompletes, rfl⟩

/-- A byte below the lead bytes is a character of its own. -/
theorem exists_encode_of_plain (hlead : lead.toNat < 0x80) :
    ∃ c : Char, c.toNat = lead.toNat ∧ String.utf8EncodeChar c = [lead] := by
  apply exists_encode_of_codeBytes (by omega)
  rw [codeBytes, if_pos hlead]
  rfl

theorem eq_of_encode_plain (hlead : lead.toNat < 0x80)
    (h : String.utf8EncodeChar c = lead :: tail) :
    tail = [] ∧ c.toNat = lead.toNat := by
  rw [utf8EncodeChar_eq_iff, List.map_cons] at h
  unfold codeBytes at h
  split_ifs at h <;> obtain ⟨hfirst, hrest⟩ := List.cons.inj h
  · exact ⟨List.map_eq_nil_iff.mp hrest.symm, hfirst⟩
  all_goals omega

/-- A character that is encoded at the start is decoded there. -/
theorem decodeFrom_encode (c : Char) (offset : Nat) (rest : List UInt8) :
    ∃ next, decodeFrom offset none (String.utf8EncodeChar c ++ rest) =
      (c :: ·) <$> decodeFrom next none rest := by
  cases hencode : String.utf8EncodeChar c with
  | nil => exact absurd hencode String.utf8EncodeChar_ne_nil
  | cons lead tail =>
      by_cases hlead : lead.toNat < 0x80
      · obtain ⟨rfl, hcode⟩ := eq_of_encode_plain hlead hencode
        refine ⟨offset + 1, ?_⟩
        rw [List.singleton_append, decodeFrom, if_pos hlead, ← hcode,
          Char.ofNat_toNat]
      · obtain ⟨p, hopens, hcompletes⟩ :=
          exists_completes_of_encode (Nat.not_lt.mp hlead) hencode
        refine ⟨offset + 1 + tail.length, ?_⟩
        rw [List.cons_append, decodeFrom, if_neg hlead,
          Pending.ofLead?_eq_some_iff.mpr hopens]
        simp only
        rw [decodeFrom_of_completes hcompletes, Char.ofNat_toNat]

/-- Bytes that are decoded start with those of a character. -/
theorem exists_encode_of_decodeFrom
    (h : decodeFrom offset none (lead :: bytes) = .ok text) :
    ∃ c rest, lead :: bytes = String.utf8EncodeChar c ++ rest := by
  rw [decodeFrom] at h
  split at h
  · next hlead =>
      obtain ⟨c, _, hencode⟩ := exists_encode_of_plain hlead
      exact ⟨c, bytes, by rw [hencode]; rfl⟩
  · split at h
    · cases h
    · next p hopens =>
        obtain ⟨tail, rest, code, hcompletes, rfl⟩ :=
          exists_completes_of_decodeFrom h
        obtain ⟨c, _, hencode⟩ := exists_encode_of_completes
          (Pending.ofLead?_eq_some_iff.mp hopens) hcompletes
        exact ⟨c, rest, by rw [hencode]; rfl⟩

theorem decodeFrom_eq_ok_iff :
    decodeFrom offset none bytes = .ok text ↔ bytes = encodeUtf8 text := by
  constructor
  · intro h
    induction text generalizing offset bytes with
    | nil =>
        cases bytes with
        | nil => rfl
        | cons lead bytes =>
            obtain ⟨c, rest, hbytes⟩ := exists_encode_of_decodeFrom h
            obtain ⟨next, hnext⟩ := decodeFrom_encode c offset rest
            rw [hbytes, hnext] at h
            obtain ⟨_, _, hcons⟩ := exists_of_map_eq_ok h
            cases hcons
    | cons c text ih =>
        cases bytes with
        | nil => cases h
        | cons lead bytes =>
            obtain ⟨d, rest, hbytes⟩ := exists_encode_of_decodeFrom h
            obtain ⟨next, hnext⟩ := decodeFrom_encode d offset rest
            rw [hbytes, hnext] at h
            obtain ⟨later, hlater, hcons⟩ := exists_of_map_eq_ok h
            obtain ⟨rfl, rfl⟩ := List.cons.inj hcons
            rw [hbytes, ih hlater]
            rfl
  · rintro rfl
    induction text generalizing offset with
    | nil => rfl
    | cons c text ih =>
        obtain ⟨next, hnext⟩ := decodeFrom_encode c offset (encodeUtf8 text)
        rw [encodeUtf8, List.flatMap_cons, ← encodeUtf8, hnext, ih]
        rfl

/-- The bytes that are decoded are the encodings of texts. -/
theorem decodeUtf8_eq_ok_iff :
    decodeUtf8 bytes = .ok text ↔ bytes = encodeUtf8 text :=
  decodeFrom_eq_ok_iff

end IntcodeMachine.Text
