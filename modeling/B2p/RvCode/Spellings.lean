import B2p.Config
import Mathlib.Data.String.Basic

/-!
# The spellings of a code, and who accepts them (`rvcode.rs`, `code.rs`, `index.js`)

A text given to `b2p send` is a rendezvous code in one of two spellings or the code of a tunnel. The
classifier `is_rendezvous_code` decides which parser gets it.

* `Issued` — the codes there are; `parse` returns no others, nor does the generator.
* `parse_display`, `parse_urlSpelling_of_issued` — both spellings of every one are parsed again.
* `isRendezvousCode_iff` — the classifier agrees with the parser on human codes.
* `not_both` — no text is a rendezvous code and a tunnel's.
-/

namespace B2p

open Text

/-- `bs58` is standard base 58; the key derivation is left open. -/
def CodeLib.base58 (deriveKey : String → Bytes → Bytes)
    (h : ∀ context b, (deriveKey context b).length = 32) : CodeLib where
  bs58Encode := Base58.encode
  bs58Decode := Base58.decode
  decode_encode := Base58.decode_encode
  encode_alphanumeric := Base58.encode_alphanum
  encode_ne_nil _ := Base58.encode_ne_nil
  deriveKey := deriveKey
  length_deriveKey := h

/-- `url::Url`, as far as `Code::parse` looks at one: the scheme is what comes before the first colon, in
lower case. -/
structure UrlLib where
  Url : Type
  parse : Str → Option Url
  scheme : Url → Str
  scheme_eq : ∀ (name rest : Str) (url : Url), name ≠ [] → (∀ c ∈ name, c.isAlphanum = true) →
    parse (name ++ ':' :: rest) = some url → scheme url = name.map Char.toLower

theorem ne_colon_of_alphanum {name : Str} (h : ∀ c ∈ name, c.isAlphanum = true) : ':' ∉ name := by
  intro hmem
  exact absurd (h _ hmem) (by decide)

/-- URLs that are not looked at beyond their first colon. -/
def UrlLib.plain : UrlLib where
  Url := Str × Str
  parse s := splitOnce ':' s
  scheme url := url.1.map Char.toLower
  scheme_eq name rest url _ hname h := by
    rw [splitOnce_append (ne_colon_of_alphanum hname), Option.some.injEq] at h
    rw [← h]

namespace RvCode

variable (L : CodeLib)

/-- `generate_url`, for the bytes drawn. -/
def generateUrl (topic secret : Bytes) : RendezvousCode := ⟨L.bs58Encode topic, secret, none, .url⟩

/-- `is_rendezvous_code`. -/
def isRendezvousCode (s : Str) : Bool :=
  let s := trim s
  if "b2p://".toList <+: s then true
  else match s.splitOn '-' with
    | [channel, w₁, w₂] => (parseU8 channel).isSome && (indexOf w₁).isSome && (indexOf w₂).isSome
    | _ => false

/-- The room the Worker's route takes from a path. -/
def roomOf (pathname : Str) : Option Str :=
  match strip "/v1/room/".toList pathname with
  | some room =>
      if 1 ≤ room.length ∧ room.length ≤ 64 ∧ room.all Char.isAlphanum then some room else none
  | none => none

def SECRET_LEN : Nat := 16

/-- `Code::parse`: the URL and the secret. -/
def parseCode (U : UrlLib) (s : Str) : Except Anyhow (U.Url × Bytes) :=
  match splitOnce '#' (trim s) with
  | none => .error (.msg "code must look like <url>#<secret>")
  | some (urlPart, frag) =>
      match U.parse urlPart with
      | none => .error (.msg "invalid URL in code")
      | some url =>
          if U.scheme url ≠ "https".toList ∧ U.scheme url ≠ "http".toList then
            .error (.msg ("code URL must be http(s), got " ++ String.ofList (U.scheme url)))
          else match L.bs58Decode frag with
            | none => .error (.msg "provided string contained invalid character")
            | some secret =>
                if secret.length = SECRET_LEN then .ok (url, secret)
                else .error (.msg s!"secret must decode to {SECRET_LEN} bytes")

/-! ## Words and numbers -/

theorem length_WORDS : WORDS.length = 256 := by decide +kernel

/-- The words are in order, so no two are the same. -/
theorem nodup_WORDS : WORDS.Nodup := by
  have hsorted : WORDS.IsChain (· < ·) := by decide +kernel
  exact (List.isChain_iff_pairwise.mp hsorted).imp ne_of_lt

theorem word_eq (i : UInt8) : ∃ h : i.toNat < WORDS.length, word i = (WORDS[i.toNat]).toList := by
  have h : i.toNat < WORDS.length := by
    rw [length_WORDS]
    exact i.toNat_lt
  exact ⟨h, by rw [word, List.getD_eq_getElem _ _ h]⟩

/-- Every word has its index back. -/
theorem indexOf_word (i : UInt8) : indexOf (word i) = some i := by
  obtain ⟨h, heq⟩ := word_eq i
  have hfind : (WORDS.findIdx? fun x => x.toList == word i) = some i.toNat := by
    rw [List.findIdx?_eq_some_iff_getElem]
    refine ⟨h, by simp [heq], ?_⟩
    intro j hj
    rw [heq]
    have hne : WORDS[j] ≠ WORDS[i.toNat] := by
      rw [ne_eq, nodup_WORDS.getElem_inj_iff]
      omega
    simpa [String.toList_inj] using hne
  rw [indexOf, hfind, Option.map_some, UInt8.ofNat_toNat]

/-- Only words have one. -/
theorem lower_of_indexOf {w : Str} {i : UInt8} (h : indexOf w = some i) : ∀ c ∈ w, c.isLower = true := by
  have hall : WORDS.all (fun w => w.toList.all Char.isLower) = true := by decide +kernel
  rw [indexOf, Option.map_eq_some_iff] at h
  obtain ⟨n, hn, -⟩ := h
  rw [List.findIdx?_eq_some_iff_getElem] at hn
  obtain ⟨hlt, heq, -⟩ := hn
  intro c hc
  rw [← beq_iff_eq.mp heq] at hc
  exact List.all_eq_true.mp (List.all_eq_true.mp hall _ (List.getElem_mem hlt)) c hc

theorem parseU8_toString (n : UInt8) : parseU8 (toString n.toNat).toList = some n := by
  have hall : ∀ n : Fin 256, parseU8 (toString n.val).toList = some (UInt8.ofNat n.val) := by
    decide +kernel
  have h := hall ⟨n.toNat, n.toNat_lt⟩
  rwa [UInt8.ofNat_toNat] at h

/-- Only digits, after a plus sign, are a number. -/
theorem digits_of_parseU8 {s : Str} {n : UInt8} (h : parseU8 s = some n) :
    ∀ c ∈ s, c = '+' ∨ c.isDigit = true := by
  have hdigits : ∀ digits : Str, ¬ (digits = [] ∨ digits.all Char.isDigit = false) →
      ∀ c ∈ digits, c.isDigit = true := by
    intro digits hd
    rw [not_or, Bool.not_eq_false, List.all_eq_true] at hd
    exact hd.2
  unfold parseU8 at h
  dsimp only at h
  intro c hc
  split at h
  · split at h
    · cases h
    · next hd =>
        rcases List.mem_cons.mp hc with rfl | hc
        · exact .inl rfl
        · exact .inr (hdigits _ hd c hc)
  · split at h
    · cases h
    · next hd => exact .inr (hdigits _ hd c hc)

/-! ## Human codes -/

/-- The three parts of a human code. -/
structure Human (s : Str) (channel i₁ i₂ : UInt8) : Prop where
  parts : ∃ c w₁ w₂, s.splitOn '-' = [c, w₁, w₂] ∧ parseU8 c = some channel ∧ indexOf w₁ = some i₁ ∧
    indexOf w₂ = some i₂

/-- A character of a human code. -/
def isHumanChar (c : Char) : Bool := c == '-' || c == '+' || c.isDigit || c.isLower

theorem isHumanChar_plain {c : Char} (h : isHumanChar c = true) :
    isWhitespace c = false ∧ c ≠ '/' ∧ c ≠ '#' := by
  simp only [isHumanChar, Bool.or_eq_true, beq_iff_eq] at h
  rcases h with ((rfl | rfl) | h) | h
  · decide
  · decide
  · have halphanum : c.isAlphanum = (c.isAlpha || c.isDigit) := rfl
    exact isHostChar_plain (by simp [isHostChar, halphanum, h])
  · have halphanum : c.isAlphanum = (c.isUpper || c.isLower || c.isDigit) := rfl
    exact isHostChar_plain (by simp [isHostChar, halphanum, h])

theorem Human.chars {s : Str} {channel i₁ i₂ : UInt8} (h : Human s channel i₁ i₂) :
    ∀ c ∈ s, isHumanChar c = true := by
  obtain ⟨ch, w₁, w₂, hsplit, hch, hw₁, hw₂⟩ := h.parts
  have hjoin : ['-'].intercalate (s.splitOn '-') = s := List.intercalate_splitOn '-'
  rw [hsplit] at hjoin
  intro c hc
  rw [← hjoin] at hc
  simp only [List.intercalate, List.intersperse, List.flatten_cons, List.flatten_nil, List.mem_append,
    List.mem_singleton, List.append_nil] at hc
  have hword : ∀ (w : Str) (i : UInt8), indexOf w = some i → c ∈ w → isHumanChar c = true := by
    intro w i hw hcw
    simp [isHumanChar, lower_of_indexOf hw c hcw]
  rcases hc with hc | rfl | hc | rfl | hc
  · rcases digits_of_parseU8 hch c hc with rfl | hd
    · decide
    · simp [isHumanChar, hd]
  · decide
  · exact hword w₁ i₁ hw₁ hc
  · decide
  · exact hword w₂ i₂ hw₂ hc

variable {L}

theorem not_long_of_human {s : Str} {channel i₁ i₂ : UInt8} (h : Human s channel i₁ i₂) :
    ¬ "b2p://".toList <+: s := by
  intro hpre
  have hslash : '/' ∈ s := hpre.subset (by decide)
  exact (isHumanChar_plain (h.chars _ hslash)).2.1 rfl

theorem parseHuman_eq_ok {s : Str} {code : RendezvousCode} : parseHuman L s = .ok code ↔
    ∃ channel i₁ i₂, Human s channel i₁ i₂ ∧ code = generateHuman L channel i₁ i₂ := by
  constructor
  · intro h
    rw [parseHuman] at h
    split at h
    · next ch w₁ w₂ hsplit =>
        split at h
        · cases h
        · next channel hch =>
            split at h
            · cases h
            · next i₁ hw₁ =>
                split at h
                · cases h
                · next i₂ hw₂ =>
                    cases h
                    exact ⟨channel, i₁, i₂, ⟨ch, w₁, w₂, hsplit, hch, hw₁, hw₂⟩, rfl⟩
    · cases h
  · rintro ⟨channel, i₁, i₂, ⟨ch, w₁, w₂, hsplit, hch, hw₁, hw₂⟩, rfl⟩
    simp only [parseHuman, hsplit, hch, hw₁, hw₂]
    rfl

/-- What is printed of a human code. -/
theorem human_display (channel i₁ i₂ : UInt8) :
    Human (display L (generateHuman L channel i₁ i₂)) channel i₁ i₂ := by
  have hnum := parseU8_toString channel
  have hno : ∀ l ∈ [(toString channel.toNat).toList, word i₁, word i₂], '-' ∉ l := by
    intro l hl hmem
    simp only [List.mem_cons, List.not_mem_nil, or_false] at hl
    rcases hl with rfl | rfl | rfl
    · rcases digits_of_parseU8 hnum _ hmem with h | h
      · exact absurd h (by decide)
      · exact absurd h (by decide)
    · exact absurd (lower_of_indexOf (indexOf_word i₁) _ hmem) (by decide)
    · exact absurd (lower_of_indexOf (indexOf_word i₂) _ hmem) (by decide)
  have hsplit := List.splitOn_intercalate '-' hno (List.cons_ne_nil _ _)
  refine ⟨_, _, _, ?_, hnum, indexOf_word i₁, indexOf_word i₂⟩
  rw [← hsplit]
  congr 1
  simp [display, generateHuman, List.intercalate, List.intersperse]

/-! ## Issued codes -/

variable (L) in
/-- The codes there are. -/
inductive Issued : RendezvousCode → Prop where
  | human (channel i₁ i₂ : UInt8) : Issued (generateHuman L channel i₁ i₂)
  | url {topic : Str} {secret : Bytes} {host : Option Str} (htopic : IsTopic L topic)
      (hsecret : secret.length = 16 ∨ secret.length = 3)
      (hhost : ∀ h ∈ host, h ≠ [] ∧ ∀ c ∈ h, isHostChar c = true) :
      Issued ⟨topic, secret, host, .url⟩

theorem isTopic_of_issued {code : RendezvousCode} (h : Issued L code) :
    IsTopic L code.topic ∧ (code.secret.length = 16 ∨ code.secret.length = 3) := by
  cases h with
  | human channel i₁ i₂ =>
      obtain ⟨b, hlen, htopic⟩ := topicFromChannel_bytes (L := L) channel
      refine ⟨?_, .inr rfl⟩
      show IsTopic L (topicFromChannel L channel)
      rw [htopic]
      exact isTopic_bs58 hlen
  | url htopic hsecret _ => exact ⟨htopic, hsecret⟩

/-- The long spelling with any host. -/
theorem parse_urlSpelling_of_issued {code : RendezvousCode} (h : Issued L code) {host : Option Str}
    (hhost : ∀ h ∈ host, h ≠ [] ∧ ∀ c ∈ h, isHostChar c = true) :
    parse L (urlSpelling L code host) = .ok ⟨code.topic, code.secret, host, .url⟩ :=
  parse_long (isTopic_of_issued h).1 (isTopic_of_issued h).2 hhost

theorem parse_human {s : Str} {channel i₁ i₂ : UInt8} (h : Human s channel i₁ i₂) :
    parse L s = .ok (generateHuman L channel i₁ i₂) := by
  have htrim : trim s = s := trim_of_all fun c hc => (isHumanChar_plain (h.chars c hc)).1
  unfold parse
  dsimp only
  rw [htrim, strip, if_neg (not_long_of_human h)]
  exact parseHuman_eq_ok.mpr ⟨channel, i₁, i₂, h, rfl⟩

/-- **What is printed is parsed again**, to the same code. -/
theorem parse_display {code : RendezvousCode} (h : Issued L code) :
    parse L (display L code) = .ok code := by
  cases h with
  | human channel i₁ i₂ => exact parse_human (human_display channel i₁ i₂)
  | url htopic hsecret hhost => exact parse_long htopic hsecret hhost

theorem issued_generateUrl {topic secret : Bytes} (ht : topic.length = 16) (hs : secret.length = 16) :
    Issued L (generateUrl L topic secret) := .url (isTopic_bs58 ht) (.inl hs) nofun

/-! ## Standard base 58 -/

section base58

variable {deriveKey : String → Bytes → Bytes} {hlen : ∀ context b, (deriveKey context b).length = 32}

theorem isTopic_of_decode {topic : Str} {b : Bytes} (hne : topic ≠ [])
    (h : Base58.decode topic = some b) (hb : b.length = 16) :
    IsTopic (CodeLib.base58 deriveKey hlen) topic where
  ne_nil := hne
  plain c hc := by
    have hall : Base58.alphabet.all isHostChar = true := by decide
    exact isHostChar_plain (List.all_eq_true.mp hall c (Base58.alphabet_of_decode h c hc))
  decodes := ⟨b, h, hb⟩

theorem roomOf_topic {topic : Str} (h : IsTopic (CodeLib.base58 deriveKey hlen) topic) :
    roomOf ("/v1/room/".toList ++ topic) = some topic := by
  obtain ⟨b, hdecode, hb⟩ := h.decodes
  have hlong := Base58.length_of_decode hdecode
  have hpos := List.length_pos_iff.mpr h.ne_nil
  have hall : topic.all Char.isAlphanum = true := by
    have halpha : Base58.alphabet.all Char.isAlphanum = true := by decide
    rw [List.all_eq_true]
    exact fun c hc => List.all_eq_true.mp halpha c (Base58.alphabet_of_decode hdecode c hc)
  rw [roomOf, strip_append]
  dsimp only
  rw [if_pos ⟨by omega, by omega, hall⟩]

theorem issued_of_parseParts {host : Option Str} {topic secret58 : Str} {code : RendezvousCode}
    (h : parseParts (CodeLib.base58 deriveKey hlen) host topic secret58 = .ok code)
    (hhost : ∀ h ∈ host, h ≠ [] ∧ ∀ c ∈ h, isHostChar c = true) :
    Issued (CodeLib.base58 deriveKey hlen) code := by
  rw [parseParts] at h
  split at h
  · cases h
  · next hne =>
      split at h
      · cases h
      · next b hdecode =>
          split at h
          · cases h
          · next hb =>
              split at h
              · cases h
              · next secret _ =>
                  split at h
                  · cases h
                  · next hsecret =>
                      cases h
                      exact .url (isTopic_of_decode hne hdecode (not_not.mp hb)) (by omega) hhost

/-- **`parse` returns issued codes only.** -/
theorem issued_of_parse {s : Str} {code : RendezvousCode}
    (h : parse (CodeLib.base58 deriveKey hlen) s = .ok code) :
    Issued (CodeLib.base58 deriveKey hlen) code := by
  unfold parse at h
  dsimp only at h
  split at h
  · rw [parseUrl] at h
    split at h
    · cases h
    · obtain ⟨⟨host, topic⟩, haddr, hparts⟩ := bind_eq_ok.mp h
      refine issued_of_parseParts hparts ?_
      intro h hh
      rw [Option.mem_def.mp hh] at haddr
      exact host_of_parseAddr haddr
  · obtain ⟨channel, i₁, i₂, -, rfl⟩ := parseHuman_eq_ok.mp h
    exact .human channel i₁ i₂

end base58

/-! ## The classifier -/

theorem isRendezvousCode_of_long {s : Str} (h : "b2p://".toList <+: trim s) : isRendezvousCode s = true := by
  unfold isRendezvousCode
  dsimp only
  rw [if_pos h]

/-- **The classifier agrees with the parser** on what is not a long code. -/
theorem isRendezvousCode_iff {s : Str} (h : ¬ "b2p://".toList <+: trim s) :
    isRendezvousCode s = true ↔ ∃ code, parse L s = .ok code := by
  have hparse : parse L s = parseHuman L (trim s) := by
    unfold parse
    dsimp only
    rw [strip, if_neg h]
  rw [hparse]
  unfold isRendezvousCode
  dsimp only
  rw [if_neg h]
  constructor
  · intro hs
    split at hs
    · next c w₁ w₂ hsplit =>
        simp only [Bool.and_eq_true, Option.isSome_iff_exists] at hs
        obtain ⟨⟨⟨channel, hc⟩, i₁, hw₁⟩, i₂, hw₂⟩ := hs
        exact ⟨_, parseHuman_eq_ok.mpr ⟨channel, i₁, i₂, ⟨c, w₁, w₂, hsplit, hc, hw₁, hw₂⟩, rfl⟩⟩
    · cases hs
  · rintro ⟨code, hcode⟩
    obtain ⟨channel, i₁, i₂, ⟨c, w₁, w₂, hsplit, hc, hw₁, hw₂⟩, -⟩ := parseHuman_eq_ok.mp hcode
    simp [hsplit, hc, hw₁, hw₂]

theorem isRendezvousCode_of_parse {s : Str} {code : RendezvousCode} (h : parse L s = .ok code) :
    isRendezvousCode s = true := by
  by_cases hlong : "b2p://".toList <+: trim s
  · exact isRendezvousCode_of_long hlong
  · exact (isRendezvousCode_iff (L := L) hlong).mpr ⟨code, h⟩

/-! ## Tunnel codes -/

theorem parseCode_eq_ok {U : UrlLib} {s : Str} {r : U.Url × Bytes} (h : parseCode L U s = .ok r) :
    ∃ urlPart frag, splitOnce '#' (trim s) = some (urlPart, frag) ∧ U.parse urlPart = some r.1 ∧
      (U.scheme r.1 = "https".toList ∨ U.scheme r.1 = "http".toList) := by
  rw [parseCode] at h
  split at h
  · cases h
  · next urlPart frag hsplit =>
      split at h
      · cases h
      · next url hurl =>
          split at h
          · cases h
          · next hscheme =>
              split at h
              · cases h
              · split at h
                · cases h
                  exact ⟨urlPart, frag, hsplit, hurl, by tauto⟩
                · cases h

/-- **No text is a rendezvous code and a tunnel's**: a long code has another scheme, and a human code has
no `#`. -/
theorem not_both {U : UrlLib} {s : Str} {code : RendezvousCode} (h : parse L s = .ok code)
    (r : U.Url × Bytes) : parseCode L U s ≠ .ok r := by
  intro hcode
  obtain ⟨urlPart, frag, hsplit, hurl, hscheme⟩ := parseCode_eq_ok hcode
  unfold parse at h
  dsimp only at h
  split at h
  · next rest hrest =>
      -- the URL is the part before the first `#`, so it begins with `b2p:` as well
      have htext : trim s = "b2p:".toList ++ ("//".toList ++ rest) := by
        rw [strip_eq_some hrest]
        rfl
      rw [htext] at hsplit
      obtain ⟨path, hpath⟩ := splitOnce_append_left (by decide) hsplit
      have hlaw := U.scheme_eq "b2p".toList path r.1 (by decide) (List.all_eq_true.mp (by decide))
        (by rw [← hurl, hpath]; rfl)
      rw [hlaw] at hscheme
      exact absurd hscheme (by decide)
  · next hnone =>
      obtain ⟨channel, i₁, i₂, hhuman, -⟩ := parseHuman_eq_ok.mp h
      have hhash : '#' ∉ trim s := fun hmem => (isHumanChar_plain (hhuman.chars _ hmem)).2.2 rfl
      rw [splitOnce_eq_none hhash] at hsplit
      cases hsplit

/-! ## All of it -/

variable (L) in
/-- A code that the generator makes or `parse` returns. -/
def Made (code : RendezvousCode) : Prop :=
  (∃ channel i₁ i₂, code = generateHuman L channel i₁ i₂) ∨
  (∃ topic secret, topic.length = 16 ∧ secret.length = 16 ∧ code = generateUrl L topic secret) ∨
  ∃ s, parse L s = .ok code

theorem issued_of_made {deriveKey : String → Bytes → Bytes}
    {hlen : ∀ context b, (deriveKey context b).length = 32} {code : RendezvousCode}
    (h : Made (CodeLib.base58 deriveKey hlen) code) : Issued (CodeLib.base58 deriveKey hlen) code := by
  rcases h with ⟨channel, i₁, i₂, rfl⟩ | ⟨topic, secret, ht, hs, rfl⟩ | ⟨s, h⟩
  · exact .human channel i₁ i₂
  · exact issued_generateUrl ht hs
  · exact issued_of_parse h

/-- **Spellings round-trip and are told apart.** Every code that is generated or parsed is parsed again
from what is printed of it, and from its long spelling with any host; its topic is a room of the Worker's
route; what `parse` accepts the classifier accepts, which is the same for all but long codes; and no text
is accepted by both parsers. -/
theorem spellings (deriveKey : String → Bytes → Bytes)
    (hlen : ∀ context b, (deriveKey context b).length = 32) (U : UrlLib) :
    (∀ code, Made (CodeLib.base58 deriveKey hlen) code →
      (∃ c, parse (CodeLib.base58 deriveKey hlen) (display (CodeLib.base58 deriveKey hlen) code) = .ok c ∧
        c.topic = code.topic ∧ c.secret = code.secret ∧ c.relayHost = code.relayHost) ∧
      (∀ host, host ≠ [] → (∀ c ∈ host, isHostChar c = true) →
        ∃ c, parse (CodeLib.base58 deriveKey hlen)
            (urlSpelling (CodeLib.base58 deriveKey hlen) code (some host)) = .ok c ∧
          c.topic = code.topic ∧ c.secret = code.secret ∧ c.relayHost = some host) ∧
      roomOf ("/v1/room/".toList ++ code.topic) = some code.topic) ∧
    ∀ s, (∀ code, parse (CodeLib.base58 deriveKey hlen) s = .ok code → isRendezvousCode s = true) ∧
      (¬ "b2p://".toList <+: trim s →
        (isRendezvousCode s = true ↔ ∃ code, parse (CodeLib.base58 deriveKey hlen) s = .ok code)) ∧
      ∀ code r, ¬ (parse (CodeLib.base58 deriveKey hlen) s = .ok code ∧
        parseCode (CodeLib.base58 deriveKey hlen) U s = .ok r) := by
  refine ⟨?_, ?_⟩
  · intro code hmade
    have hissued := issued_of_made hmade
    refine ⟨⟨code, parse_display hissued, rfl, rfl, rfl⟩, ?_, roomOf_topic (isTopic_of_issued hissued).1⟩
    intro host hne hchars
    refine ⟨_, parse_urlSpelling_of_issued hissued ?_, rfl, rfl, rfl⟩
    intro h hh
    cases hh
    exact ⟨hne, hchars⟩
  · intro s
    exact ⟨fun _ => isRendezvousCode_of_parse, fun hlong => isRendezvousCode_iff hlong,
      fun _ r h => not_both h.1 r h.2⟩

/-- The code of the source's own tests, in both spellings. -/
theorem spellings_otter :
    display .channel7 (generateHuman .channel7 7 140 251) = "7-otter-zebra".toList ∧
    (∃ c, parse .channel7 "7-otter-zebra".toList = .ok c ∧ c.topic = topicFromChannel .channel7 7 ∧
      c.secret = [7, 140, 251] ∧ c.relayHost = none) ∧
    (∃ c, parse .channel7 (urlSpelling .channel7 (generateHuman .channel7 7 140 251)
        (some "relay.example".toList)) = .ok c ∧
      c.topic = topicFromChannel .channel7 7 ∧ c.secret = [7, 140, 251] ∧
      c.relayHost = some "relay.example".toList) ∧
    roomOf ("/v1/room/".toList ++ topicFromChannel .channel7 7) = some (topicFromChannel .channel7 7) ∧
    isRendezvousCode "7-otter-zebra".toList = true ∧
    ∀ r, parseCode .channel7 .plain "7-otter-zebra".toList ≠ .ok r := by
  obtain ⟨hmade, haccepts⟩ := spellings CodeLib.channel7.deriveKey CodeLib.channel7.length_deriveKey .plain
  obtain ⟨⟨c, hparse, hc⟩, hurl, hroom⟩ := hmade _ (.inl ⟨7, 140, 251, rfl⟩)
  have hdisplay : display .channel7 (generateHuman .channel7 7 140 251) = "7-otter-zebra".toList := by decide
  obtain ⟨hclass, -, hnot⟩ := haccepts "7-otter-zebra".toList
  have hshown : parse .channel7 (display .channel7 (generateHuman .channel7 7 140 251)) = .ok c := hparse
  rw [hdisplay] at hshown
  refine ⟨hdisplay, ⟨c, hshown, hc⟩, hurl _ (by decide) (List.all_eq_true.mp (by decide)), hroom,
    hclass c hshown, fun r hr => ?_⟩
  exact hnot c r ⟨hshown, hr⟩

end RvCode
end B2p
