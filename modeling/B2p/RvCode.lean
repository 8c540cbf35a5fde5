import B2p.Protocol
import B2p.Lib.Text

/-!
# Codes (`rvcode.rs`, `words.rs`)

A code names a meeting point and carries the password: `<channel>-<word>-<word>` for people, and
`b2p://[host/]<topic>#<secret>` for pasting, where the host says at which relay the receiver waits.
`bs58` and `blake3` are libraries; `CodeLib` has their functions and what the code relies on.

* `RendezvousCode.urlSpelling`, `RvCode.parse` — printing and parsing.
* `parse_long` — a long code is parsed again, host and all, when the host is of the characters `parse`
  allows.
-/

namespace B2p

open Text

/-- The functions of `bs58` and `blake3` that codes use. -/
structure CodeLib where
  /-- `bs58::encode(..).into_string()`. -/
  bs58Encode : Bytes → Str
  /-- `bs58::decode(..).into_vec()`. -/
  bs58Decode : Str → Option Bytes
  decode_encode : ∀ b, bs58Decode (bs58Encode b) = some b
  encode_alphanumeric : ∀ b, ∀ c ∈ bs58Encode b, c.isAlphanum = true
  encode_ne_nil : ∀ b, b ≠ [] → bs58Encode b ≠ []
  /-- `blake3::derive_key`. -/
  deriveKey : (context : String) → Bytes → Bytes
  length_deriveKey : ∀ context b, (deriveKey context b).length = 32

/-! ## Words -/

def WORDS : List String :=
  ["acorn", "actor", "album", "amber", "ankle", "apron", "arrow", "aspen", "atlas", "audio",
   "autumn", "bacon", "badger", "banjo", "barrel", "basil", "bishop", "bison", "branch", "brave",
   "bronze", "bucket", "buffalo", "cabin", "cactus", "candle", "canyon", "cargo", "carpet",
   "castle", "cellar", "chapel", "cherry", "chimney", "circus", "citrus", "clover", "coffee",
   "comet", "copper", "coral", "cottage", "cougar", "cricket", "crystal", "cymbal", "dahlia",
   "daisy", "decoy", "denim", "diesel", "domino", "donkey", "drummer", "eagle", "elbow",
   "emerald", "empire", "ethics", "fabric", "fennel", "ferry", "fiddle", "fjord", "flamingo",
   "flute", "forest", "fountain", "foxglove", "fresco", "gadget", "gallery", "gecko", "geyser",
   "giraffe", "glacier", "glimpse", "granite", "gravel", "guitar", "gumbo", "habitat", "hamlet",
   "hammer", "helmet", "hermit", "hornet", "hostel", "import", "insect", "ironic", "ivory",
   "jackal", "jaguar", "jasmine", "jester", "jigsaw", "jockey", "junior", "kayak", "ketchup",
   "kettle", "kimono", "kitchen", "koala", "lagoon", "lantern", "leopard", "lettuce", "lilac",
   "lizard", "llama", "locket", "locust", "lotus", "lumber", "mango", "maple", "marble", "meadow",
   "medal", "meteor", "mildew", "mirror", "mohair", "molten", "mustard", "nectar", "nephew",
   "nickel", "nomad", "noodle", "nostril", "nutmeg", "oatmeal", "octopus", "onion", "orchard",
   "orchid", "osprey", "otter", "outlaw", "oyster", "paddle", "pancake", "panda", "panther",
   "parrot", "parsley", "pebble", "pelican", "penguin", "pepper", "petal", "phantom", "pigeon",
   "pirate", "pistol", "plaza", "plume", "pollen", "poplar", "poppy", "potato", "powder",
   "pretzel", "prism", "pudding", "puppet", "python", "quiver", "rabbit", "radish", "rafter",
   "rainbow", "raven", "ravine", "rhino", "ribbon", "robin", "rooster", "rubber", "rudder",
   "saffron", "sandal", "sapphire", "satchel", "scarlet", "scholar", "serpent", "shadow",
   "shrimp", "signal", "silver", "slipper", "sonnet", "spinach", "sponge", "squid", "stadium",
   "stallion", "stingray", "stucco", "sulfur", "summit", "swallow", "sweater", "symbol", "tablet",
   "tadpole", "tangent", "tapestry", "temple", "tenant", "tepee", "thimble", "thorn", "timber",
   "tinsel", "tornado", "tortoise", "totem", "trolley", "trophy", "tundra", "turban", "turtle",
   "tuxedo", "ulcer", "upward", "urchin", "vacuum", "valley", "velvet", "vendor", "venom",
   "viking", "violet", "vortex", "waffle", "walrus", "warden", "wasabi", "whistle", "willow",
   "winter", "wombat", "xylophone", "yarn", "yeast", "yogurt", "zebra", "zephyr", "zigzag",
   "zodiac", "zombie"]

/-- `words::word`. -/
def word (i : UInt8) : Str := (WORDS.getD i.toNat "").toList

/-- `words::index_of`. -/
def indexOf (w : Str) : Option UInt8 :=
  (WORDS.findIdx? fun x => x.toList == w).map UInt8.ofNat

/-! ## Codes -/

inductive Spelling where
  | human
  | url
  deriving DecidableEq, Repr

structure RendezvousCode where
  topic : Str
  secret : Bytes
  relayHost : Option Str
  spelling : Spelling
  deriving DecidableEq

namespace RvCode

variable (L : CodeLib)

def TOPIC_CTX : String := "b2p-v2-rendezvous-topic v1"

/-- `topic_from_channel`. -/
def topicFromChannel (channel : UInt8) : Str := L.bs58Encode ((L.deriveKey TOPIC_CTX [channel]).take 16)

/-- `generate_human`, for the three bytes drawn. -/
def generateHuman (channel i₁ i₂ : UInt8) : RendezvousCode :=
  ⟨topicFromChannel L channel, [channel, i₁, i₂], none, .human⟩

/-- The characters of a relay host. -/
def isHostChar (c : Char) : Bool := c.isAlphanum || ".-:".toList.contains c

/-- `str::parse::<u8>`. -/
def parseU8 (s : Str) : Option UInt8 :=
  let digits := match s with
    | '+' :: rest => rest
    | _ => s
  if digits = [] ∨ digits.all Char.isDigit = false then none
  else
    let n := digits.foldl (fun n c => 10 * n + (c.toNat - '0'.toNat)) 0
    if n < 256 then some (UInt8.ofNat n) else none

/-- The host and the topic of `[host/]<topic>`. -/
def parseAddr (addr : Str) : Except Anyhow (Option Str × Str) :=
  match splitOnce '/' addr with
  | some (host, topic) =>
      if host = [] ∨ host.all isHostChar = false then
        .error (.msg "b2p code relay host contains invalid characters")
      else .ok (some host, topic)
  | none => .ok (none, addr)

/-- The checks of the topic and the secret. -/
def parseParts (relayHost : Option Str) (topic secret58 : Str) : Except Anyhow RendezvousCode :=
  if topic = [] then .error (.msg "b2p code has an empty topic")
  else match L.bs58Decode topic with
    | none => .error (.msg "b2p code topic is not valid base58")
    | some topicBytes =>
        if topicBytes.length ≠ 16 then .error (.msg "b2p code topic must be 16 bytes (base58)")
        else match L.bs58Decode secret58 with
          | none => .error (.msg "b2p code secret is not valid base58")
          | some secret =>
              if secret.length ≠ 16 ∧ secret.length ≠ 3 then
                .error (.msg ("b2p code secret must be 16 bytes (or 3 for a human code) — got "
                  ++ toString secret.length))
              else .ok ⟨topic, secret, relayHost, .url⟩

/-- `parse`, after `b2p://`. -/
def parseUrl (rest : Str) : Except Anyhow RendezvousCode :=
  match splitOnce '#' rest with
  | none => .error (.msg "b2p code must look like b2p://[host/]<topic>#<secret>")
  | some (addr, secret58) => do
      let (relayHost, topic) ← parseAddr addr
      parseParts L relayHost topic secret58

/-- `parse`, for the human form. -/
def parseHuman (s : Str) : Except Anyhow RendezvousCode :=
  match s.splitOn '-' with
  | [channel, w₁, w₂] =>
      match parseU8 channel with
      | none => .error (.msg ("channel '" ++ String.ofList channel ++ "' must be a number 0-255"))
      | some channel =>
          match indexOf w₁ with
          | none => .error (.msg ("'" ++ String.ofList w₁ ++ "' is not in the word list"))
          | some i₁ =>
              match indexOf w₂ with
              | none => .error (.msg ("'" ++ String.ofList w₂ ++ "' is not in the word list"))
              | some i₂ => .ok ⟨topicFromChannel L channel, [channel, i₁, i₂], none, .human⟩
  | _ => .error (.msg "code must look like <channel>-<word>-<word> or b2p://<topic>#<secret>")

/-- `rvcode::parse`. Where the source adds a context to an error of `bs58` or of `u8`'s parser, the error
here is the context. -/
def parse (s : Str) : Except Anyhow RendezvousCode :=
  let s := trim s
  match strip "b2p://".toList s with
  | some rest => parseUrl L rest
  | none => parseHuman L s

/-- `RendezvousCode::url_spelling`. -/
def urlSpelling (code : RendezvousCode) (relayHost : Option Str) : Str :=
  let host := match relayHost with
    | some h => h ++ "/".toList
    | none => []
  "b2p://".toList ++ (host ++ (code.topic ++ ('#' :: L.bs58Encode code.secret)))

/-- `Display`. -/
def display (code : RendezvousCode) : Str :=
  match code.spelling, code.secret with
  | .human, channel :: i₁ :: i₂ :: _ =>
      (toString channel.toNat).toList ++ ('-' :: word i₁) ++ ('-' :: word i₂)
  -- the source would panic here: a human code has three bytes
  | .human, _ => []
  | .url, _ => urlSpelling L code code.relayHost

/-! ## Long codes -/

variable {L}

theorem not_whitespace_of_alphanum {c : Char} (h : c.isAlphanum = true) : isWhitespace c = false := by
  have hrange : (65 ≤ c.toNat ∧ c.toNat ≤ 90) ∨ (97 ≤ c.toNat ∧ c.toNat ≤ 122) ∨
      (48 ≤ c.toNat ∧ c.toNat ≤ 57) := by
    replace h : (decide (65 ≤ c.val ∧ c.val ≤ 90) || decide (97 ≤ c.val) && decide (c.val ≤ 122) ||
      decide (48 ≤ c.val) && decide (c.val ≤ 57)) = true := h
    simp only [Bool.or_eq_true, Bool.and_eq_true, decide_eq_true_eq, UInt32.le_iff_toNat_le] at h
    rcases h with (h | h) | h
    · exact .inl h
    · exact .inr (.inl h)
    · exact .inr (.inr h)
  simp only [isWhitespace, Bool.or_eq_false_iff, Bool.and_eq_false_iff, decide_eq_false_iff_not,
    beq_eq_false_iff_ne]
  omega

theorem isHostChar_cases {c : Char} (h : isHostChar c = true) :
    c.isAlphanum = true ∨ c = '.' ∨ c = '-' ∨ c = ':' := by
  simpa [isHostChar] using h

theorem isHostChar_plain {c : Char} (h : isHostChar c = true) :
    isWhitespace c = false ∧ c ≠ '/' ∧ c ≠ '#' := by
  rcases isHostChar_cases h with h | rfl | rfl | rfl
  · refine ⟨not_whitespace_of_alphanum h, ?_, ?_⟩
    · rintro rfl
      exact absurd h (by decide)
    · rintro rfl
      exact absurd h (by decide)
  · decide
  · decide
  · decide

theorem bs58_plain (b : Bytes) : ∀ c ∈ L.bs58Encode b, isWhitespace c = false ∧ c ≠ '/' ∧ c ≠ '#' :=
  fun c hc => isHostChar_plain (by simp [isHostChar, L.encode_alphanumeric b c hc])

theorem topicFromChannel_bytes (channel : UInt8) :
    ∃ b, b.length = 16 ∧ topicFromChannel L channel = L.bs58Encode b :=
  ⟨(L.deriveKey TOPIC_CTX [channel]).take 16, by simp [L.length_deriveKey], rfl⟩

variable (L) in
/-- A topic `parse` accepts. -/
structure IsTopic (topic : Str) : Prop where
  ne_nil : topic ≠ []
  plain : ∀ c ∈ topic, isWhitespace c = false ∧ c ≠ '/' ∧ c ≠ '#'
  decodes : ∃ b, L.bs58Decode topic = some b ∧ b.length = 16

theorem isTopic_bs58 {b : Bytes} (h : b.length = 16) : IsTopic L (L.bs58Encode b) where
  ne_nil := L.encode_ne_nil b (by
    rintro rfl
    cases h)
  plain := bs58_plain b
  decodes := ⟨b, L.decode_encode b, h⟩

/-- What comes before the topic. -/
def beforeTopic : Option Str → Str
  | some h => h ++ "/".toList
  | none => []

theorem urlSpelling_eq (code : RendezvousCode) (host : Option Str) : urlSpelling L code host
    = "b2p://".toList ++ (beforeTopic host ++ (code.topic ++ '#' :: L.bs58Encode code.secret)) := by
  cases host <;> rfl

/-- The host and the topic are told apart by the first slash, if there is one. -/
theorem parseAddr_host {topic : Str} (htopic : IsTopic L topic) {host : Option Str}
    (hhost : ∀ h ∈ host, h ≠ [] ∧ ∀ c ∈ h, isHostChar c = true) :
    parseAddr (beforeTopic host ++ topic) = .ok (host, topic) := by
  cases host with
  | none =>
      show parseAddr topic = _
      rw [parseAddr, splitOnce_eq_none fun h => (htopic.plain _ h).2.1 rfl]
  | some h =>
      obtain ⟨hne, hchars⟩ := hhost h rfl
      have hslash : '/' ∉ h := fun hmem => (isHostChar_plain (hchars _ hmem)).2.1 rfl
      have hsplit : beforeTopic (some h) ++ topic = h ++ '/' :: topic := by simp [beforeTopic]
      rw [hsplit, parseAddr, splitOnce_append hslash]
      dsimp only
      rw [if_neg]
      rintro (hnil | hbad)
      · exact hne hnil
      · rw [List.all_eq_true.mpr hchars] at hbad
        cases hbad

/-- **A long code is parsed again**, whenever the host is one `parse` allows. -/
theorem parse_long {code : RendezvousCode} (htopic : IsTopic L code.topic)
    (hsecret : code.secret.length = 16 ∨ code.secret.length = 3) {host : Option Str}
    (hhost : ∀ h ∈ host, h ≠ [] ∧ ∀ c ∈ h, isHostChar c = true) :
    parse L (urlSpelling L code host) = .ok ⟨code.topic, code.secret, host, .url⟩ := by
  -- the text has no white space, and no `#` but the last
  have hbefore : ∀ c ∈ beforeTopic host, isWhitespace c = false ∧ c ≠ '#' := by
    intro c hc
    cases host with
    | none => cases hc
    | some h =>
        rcases List.mem_append.mp hc with hc | hc
        · have hplain := isHostChar_plain ((hhost h rfl).2 c hc)
          exact ⟨hplain.1, hplain.2.2⟩
        · rw [List.mem_singleton.mp hc]
          decide
  have htrim : trim (urlSpelling L code host)
      = "b2p://".toList ++ ((beforeTopic host ++ code.topic) ++ '#' :: L.bs58Encode code.secret) := by
    rw [urlSpelling_eq, List.append_assoc]
    refine trim_of_all fun c hc => ?_
    simp only [List.mem_append, List.mem_cons] at hc
    rcases hc with hc | hc | hc | rfl | hc
    · have hscheme : "b2p://".toList.all (fun c => !isWhitespace c) = true := by decide
      simpa using List.all_eq_true.mp hscheme c hc
    · exact (hbefore c hc).1
    · exact (htopic.plain c hc).1
    · decide
    · exact (bs58_plain _ c hc).1
  have hhash : '#' ∉ beforeTopic host ++ code.topic := by
    rw [List.mem_append, not_or]
    exact ⟨fun h => (hbefore _ h).2 rfl, fun h => (htopic.plain _ h).2.2 rfl⟩
  unfold parse
  dsimp only
  rw [htrim, strip_append]
  simp only [parseUrl, splitOnce_append hhash, parseAddr_host htopic hhost]
  show parseParts L host code.topic (L.bs58Encode code.secret) = _
  obtain ⟨b, hdecode, hlen⟩ := htopic.decodes
  rw [parseParts, if_neg htopic.ne_nil, hdecode, L.decode_encode]
  simp only [hlen, ne_eq, not_true_eq_false, if_false]
  rw [if_neg (by omega)]

/-- The long code of a human one. -/
theorem parse_urlSpelling (channel i₁ i₂ : UInt8) {host : Str} (hne : host ≠ [])
    (hhost : ∀ c ∈ host, isHostChar c = true) :
    parse L (urlSpelling L (generateHuman L channel i₁ i₂) (some host))
      = .ok ⟨topicFromChannel L channel, [channel, i₁, i₂], some host, .url⟩ := by
  obtain ⟨b, hlen, htopic⟩ := topicFromChannel_bytes (L := L) channel
  have hok : IsTopic L (generateHuman L channel i₁ i₂).topic := by
    rw [show (generateHuman L channel i₁ i₂).topic = L.bs58Encode b from htopic]
    exact isTopic_bs58 hlen
  refine parse_long hok (.inr rfl) ?_
  intro h hh
  cases hh
  exact ⟨hne, hhost⟩

theorem relayHost_of_parseParts {relayHost : Option Str} {topic secret58 : Str} {code : RendezvousCode}
    (h : parseParts L relayHost topic secret58 = .ok code) : code.relayHost = relayHost := by
  rw [parseParts] at h
  split at h
  · cases h
  · split at h
    · cases h
    · split at h
      · cases h
      · split at h
        · cases h
        · split at h
          · cases h
          · cases h
            rfl

theorem host_of_parseAddr {addr topic host : Str} (h : parseAddr addr = .ok (some host, topic)) :
    host ≠ [] ∧ ∀ c ∈ host, isHostChar c = true := by
  rw [parseAddr] at h
  split at h
  · split at h
    · cases h
    · next hok =>
        cases h
        rw [not_or, Bool.not_eq_false, List.all_eq_true] at hok
        exact hok
  · cases h

/-- **What `parse` calls a host has the characters of one.** -/
theorem host_of_parse {s : Str} {code : RendezvousCode} (h : parse L s = .ok code) {host : Str}
    (hhost : code.relayHost = some host) : host ≠ [] ∧ ∀ c ∈ host, isHostChar c = true := by
  unfold parse at h
  simp only at h
  split at h
  · next rest _ =>
      rw [parseUrl] at h
      split at h
      · cases h
      · next addr secret58 _ =>
          cases haddr : parseAddr addr with
          | error e =>
              rw [haddr] at h
              cases h
          | ok r =>
              obtain ⟨relayHost, topic⟩ := r
              rw [haddr] at h
              have hrelay := relayHost_of_parseParts (L := L) h
              rw [hhost] at hrelay
              subst hrelay
              exact host_of_parseAddr haddr
  · -- a human code names no host
    rw [parseHuman] at h
    split at h
    · split at h
      · cases h
      · split at h
        · cases h
        · split at h
          · cases h
          · cases h
            cases hhost
    · cases h

end RvCode

end B2p
