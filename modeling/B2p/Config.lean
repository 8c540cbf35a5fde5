import B2p.RvCode
import B2p.Lib.Base58

/-!
# Which relay (`config.rs`, `normalize_relay_url` of `transport/relay.rs`)

The receiver resolves its relay's URL from the flag, the environment or the file, strips the scheme, and
prints the rest as the host of the long code; a sender without a relay of its own puts `wss://` before
the host it parsed.

* `normalizeRelayUrl`, `resolveRelay`, `relayHost` — the three.
* `Meets` — sender and receiver end up at the same URL.
* `meets_iff` — they do for a `wss` URL of a plain host and no other: the host of the code has no place
  for another scheme, a path, user information or the brackets of an IPv6 address.
-/

namespace B2p

open Text

/-! ## `normalize_relay_url` -/

def normalizeRelayUrl (s : Str) : Except Anyhow Str :=
  let s := trimEndMatches '/' (trim s)
  match strip "https://".toList s with
  | some rest => .ok ("wss://".toList ++ rest)
  | none =>
      match strip "http://".toList s with
      | some rest => .ok ("ws://".toList ++ rest)
      | none =>
          if "wss://".toList <+: s ∨ "ws://".toList <+: s then .ok s
          else .error (.msg ("relay URL must start with wss:// or https:// (got '"
            ++ String.ofList s ++ "')"))

/-! ## `resolve_relay` -/

structure Config where
  relay : Option Str
  relayToken : Option Str

structure RelayCfg where
  url : Str
  token : Option Str

/-- The user's own relay: flag, then environment, then file. -/
def ownRelay (flag envUrl : Option Str) (file : Config) : Except Anyhow (Option Str) :=
  match flag, envUrl, file.relay with
  | some f, _, _ => (normalizeRelayUrl f).map some
  | none, some e, _ => (normalizeRelayUrl e).map some
  | none, none, some f => (normalizeRelayUrl f).map some
  | none, none, none => .ok none

/-- The URL, and whether the token may travel there. -/
def relayUrl (flag codeHost : Option Str) (own : Option Str) : Except Anyhow (Str × Bool) :=
  match flag, codeHost, own with
  | some f, _, _ => do return (← normalizeRelayUrl f, true)
  | none, some h, own => do
      let h := if "://".toList <:+: h then h else "wss://".toList ++ h
      let url ← normalizeRelayUrl h
      return (url, own == some url)
  | none, none, some own => .ok (own, true)
  | none, none, none =>
      .error (.msg ("no relay configured — deploy relay-worker/ once (npx wrangler deploy), then run: "
        ++ "b2p relay set wss://<your-worker>.workers.dev  (or pass --relay / set B2P_RELAY)"))

def resolveRelay (flag codeHost envUrl envToken : Option Str) (file : Config) : Except Anyhow RelayCfg := do
  let own ← ownRelay flag envUrl file
  let (url, trusted) ← relayUrl flag codeHost own
  return ⟨url, if trusted then envToken.or file.relayToken else none⟩

/-- The host `receive_relay_cli` prints for the URL of its relay. -/
def relayHost (url : Str) : Str := trimStartMatches "ws://".toList (trimStartMatches "wss://".toList url)

/-! ## The meeting -/

section meeting

variable (L : CodeLib)

open RvCode

/-- The long code printed for `code` by a receiver at the relay `url` is parsed to the same topic and
secret, and a sender without a relay of its own that resolves the host of it gets `url`. -/
def Meets (url : Str) (code : RendezvousCode) : Prop :=
  ∃ rc, parse L (urlSpelling L code (some (relayHost url))) = .ok rc ∧ rc.topic = code.topic ∧
    rc.secret = code.secret ∧ ∀ envToken relayToken, ∃ cfg,
      resolveRelay none rc.relayHost none envToken ⟨none, relayToken⟩ = .ok cfg ∧ cfg.url = url

/-- `wss://` and a plain host, or a host and a port. -/
def PlainHost (url : Str) : Prop :=
  ∃ host, url = "wss://".toList ++ host ∧ host ≠ [] ∧ ∀ c ∈ host, isHostChar c = true

variable {L}

theorem no_slash_of_host {host : Str} (h : ∀ c ∈ host, isHostChar c = true) : '/' ∉ host :=
  fun hmem => (isHostChar_plain (h _ hmem)).2.1 rfl

theorem relayHost_of_host {host : Str} (h : ∀ c ∈ host, isHostChar c = true) :
    relayHost ("wss://".toList ++ host) = host := by
  have hno : ∀ pat : Str, '/' ∈ pat → ¬ pat <+: host :=
    fun pat hpat hpre => no_slash_of_host h (hpre.subset hpat)
  rw [relayHost, trimStartMatches_append (by decide), trimStartMatches_of_not (hno _ (by decide)),
    trimStartMatches_of_not (hno _ (by decide))]

/-- A host is normalized as it is. -/
theorem normalizeRelayUrl_of_host {host : Str} (hne : host ≠ []) (h : ∀ c ∈ host, isHostChar c = true) :
    normalizeRelayUrl ("wss://".toList ++ host) = .ok ("wss://".toList ++ host) := by
  have hscheme : "wss://".toList.all (fun c => !isWhitespace c) = true := by decide
  have htrim : trim ("wss://".toList ++ host) = "wss://".toList ++ host := by
    refine trim_of_all fun c hc => ?_
    rcases List.mem_append.mp hc with hc | hc
    · simpa using List.all_eq_true.mp hscheme c hc
    · exact (isHostChar_plain (h c hc)).1
  have hend : trimEndMatches '/' ("wss://".toList ++ host) = "wss://".toList ++ host := by
    refine trimEndMatches_of_not_mem fun c hc => ?_
    rw [List.getLast?_append_of_ne_nil _ hne] at hc
    exact (isHostChar_plain (h c (List.mem_of_mem_getLast? hc))).2.1
  rw [normalizeRelayUrl, htrim, hend]
  simp [strip]

/-- What an unconfigured sender makes of a host. -/
theorem resolveRelay_of_host {host : Str} (hne : host ≠ []) (h : ∀ c ∈ host, isHostChar c = true)
    (envToken relayToken : Option Str) :
    resolveRelay none (some host) none envToken ⟨none, relayToken⟩
      = .ok ⟨"wss://".toList ++ host, none⟩ := by
  have hscheme : ¬ "://".toList <:+: host :=
    fun hin => no_slash_of_host h (hin.subset (by decide))
  have hurl : relayUrl none (some host) none = .ok ("wss://".toList ++ host, false) := by
    simp only [relayUrl, if_neg hscheme, normalizeRelayUrl_of_host hne h]
    rfl
  rw [resolveRelay]
  simp only [ownRelay]
  show relayUrl none (some host) none >>= _ = _
  rw [hurl]
  rfl

/-- Without a host in the code, and no relay of its own, the sender has nowhere to go. -/
theorem resolveRelay_none (envToken relayToken : Option Str) (cfg : RelayCfg) :
    resolveRelay none none none envToken ⟨none, relayToken⟩ ≠ .ok cfg := by
  intro h
  cases h

theorem meets_of_plainHost {url : Str} (h : PlainHost url) (channel i₁ i₂ : UInt8) :
    Meets L url (generateHuman L channel i₁ i₂) := by
  obtain ⟨host, rfl, hne, hhost⟩ := h
  refine ⟨⟨topicFromChannel L channel, [channel, i₁, i₂], some host, .url⟩, ?_, rfl, rfl, ?_⟩
  · rw [relayHost_of_host hhost]
    exact parse_urlSpelling channel i₁ i₂ hne hhost
  · intro envToken relayToken
    exact ⟨_, resolveRelay_of_host hne hhost envToken relayToken, rfl⟩

theorem plainHost_of_meets {url : Str} {code : RendezvousCode} (h : Meets L url code) : PlainHost url := by
  obtain ⟨rc, hparse, -, -, hall⟩ := h
  obtain ⟨cfg, hcfg, hurl⟩ := hall none none
  cases hhost : rc.relayHost with
  | none =>
      rw [hhost] at hcfg
      exact absurd hcfg (resolveRelay_none _ _ _)
  | some host =>
      obtain ⟨hne, hchars⟩ := host_of_parse hparse hhost
      rw [hhost, resolveRelay_of_host hne hchars] at hcfg
      cases hcfg
      exact ⟨host, hurl.symm, hne, hchars⟩

/-- **Both peers meet at the same relay for the URLs of plain hosts, and no others.** -/
theorem meets_iff (url : Str) (channel i₁ i₂ : UInt8) :
    Meets L url (generateHuman L channel i₁ i₂) ↔ PlainHost url :=
  ⟨plainHost_of_meets, fun h => meets_of_plainHost h channel i₁ i₂⟩

end meeting

/-! ## A relay without TLS -/

/-- Base 58 as `bs58` has it, and `blake3::derive_key` at the channel of `7-otter-zebra`. -/
def CodeLib.channel7 : CodeLib where
  bs58Encode := Base58.encode
  bs58Decode := Base58.decode
  decode_encode := Base58.decode_encode
  encode_alphanumeric := Base58.encode_alphanum
  encode_ne_nil _ := Base58.encode_ne_nil
  deriveKey _ _ :=
    [52, 40, 248, 177, 160, 144, 68, 174, 231, 131, 72, 29, 190, 172, 174, 29,
     177, 82, 139, 147, 157, 181, 49, 20, 18, 211, 67, 248, 73, 85, 41, 112]
  length_deriveKey _ _ := rfl

-- the topic the source's own tests freeze for channel 7
example : RvCode.topicFromChannel CodeLib.channel7 7 = "7SaLbusu7A4TnKctM3GTFJ".toList := by decide +kernel

/-- A receiver whose relay is `ws://relay.local:8787` prints a long code whose sender dials `wss`. -/
theorem not_meets_plainWs :
    ∃ cfg, resolveRelay (some "ws://relay.local:8787".toList) none none none ⟨none, none⟩ = .ok cfg ∧
      ¬ Meets CodeLib.channel7 cfg.url (RvCode.generateHuman CodeLib.channel7 7 140 251) := by
  refine ⟨⟨"ws://relay.local:8787".toList, none⟩, rfl, ?_⟩
  intro h
  obtain ⟨host, heq, -, -⟩ := plainHost_of_meets h
  have hthird := congrArg (fun s : Str => s[2]?) heq
  simp at hthird

end B2p
