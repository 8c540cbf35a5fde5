import B2p.Config

/-!
# Five sources of a relay (`resolve_relay`)

The flag, the host of a code, the environment, the file, and a token in either of the last two. A code
may come from a stranger.

* `resolve_spec` — what `resolveRelay` returns, and with which token.
* `token_stays_home` — a token goes nowhere but to the user's own relay.
* `Sources.winner` — the source that decides by the documented precedence, alone.
* `decided_iff` — when the others make no difference: not where the code's host wins over a malformed
  relay of the user's own.
-/

namespace B2p

open Text

/-- The arguments of `resolve_relay`. -/
structure Sources where
  flag : Option Str
  codeHost : Option Str
  envUrl : Option Str
  envToken : Option Str
  file : Config

namespace Sources

def resolve (s : Sources) : Except Anyhow RelayCfg :=
  resolveRelay s.flag s.codeHost s.envUrl s.envToken s.file

/-- The user's own relay as it is written: the flag, else the environment's, else the file's. -/
def own (s : Sources) : Option Str := s.flag.or (s.envUrl.or s.file.relay)

/-- The token, whether it may travel or not. -/
def token (s : Sources) : Option Str := s.envToken.or s.file.relayToken

/-- The same with other tokens. -/
def withTokens (s : Sources) (envToken relayToken : Option Str) : Sources :=
  { s with envToken := envToken, file := ⟨s.file.relay, relayToken⟩ }

/-- `url` is the user's own relay, normalized. -/
def Home (s : Sources) (url : Str) : Prop := ∃ r, s.own = some r ∧ normalizeRelayUrl r = .ok url

/-! ## What is returned -/

theorem ownRelay_none {s : Sources} (h : s.own = none) :
    ownRelay s.flag s.envUrl s.file = .ok none := by
  obtain ⟨flag, codeHost, envUrl, envToken, ⟨relay, relayToken⟩⟩ := s
  cases flag with
  | some f => cases h
  | none =>
      cases envUrl with
      | some e => cases h
      | none =>
          cases relay with
          | some r => cases h
          | none => rfl

theorem ownRelay_some {s : Sources} {r : Str} (h : s.own = some r) :
    ownRelay s.flag s.envUrl s.file = (normalizeRelayUrl r).map some := by
  obtain ⟨flag, codeHost, envUrl, envToken, ⟨relay, relayToken⟩⟩ := s
  cases flag with
  | some f =>
      cases h
      rfl
  | none =>
      cases envUrl with
      | some e =>
          cases h
          rfl
      | none =>
          cases relay with
          | some r' =>
              cases h
              rfl
          | none => cases h

/-- The host of a code as `resolve_relay` normalizes it. -/
def hostUrl (h : Str) : Except Anyhow Str :=
  normalizeRelayUrl (if "://".toList <:+: h then h else "wss://".toList ++ h)

/-- **What `resolve_relay` does**: it normalizes the user's own relay first, then the URL of the source
that wins, and adds the token if the two are the same. -/
theorem resolve_eq_ok {s : Sources} {cfg : RelayCfg} : s.resolve = .ok cfg ↔
    ∃ own trusted, ownRelay s.flag s.envUrl s.file = .ok own ∧
      relayUrl s.flag s.codeHost own = .ok (cfg.url, trusted) ∧
      cfg.token = if trusted then s.token else none := by
  rw [resolve, resolveRelay, bind_eq_ok]
  constructor
  · rintro ⟨own, hown, h⟩
    obtain ⟨⟨url, trusted⟩, hurl, hcfg⟩ := bind_eq_ok.mp h
    cases hcfg
    exact ⟨own, trusted, hown, hurl, rfl⟩
  · rintro ⟨own, trusted, hown, hurl, htoken⟩
    refine ⟨own, hown, bind_eq_ok.mpr ⟨_, hurl, ?_⟩⟩
    obtain ⟨url, token⟩ := cfg
    cases htoken
    rfl

/-! ## The token -/

/-- A trusted URL is the user's own relay's. -/
theorem home_of_trusted {s : Sources} {own : Option Str} {url : Str}
    (hown : ownRelay s.flag s.envUrl s.file = .ok own)
    (h : relayUrl s.flag s.codeHost own = .ok (url, true)) : s.Home url := by
  -- it is enough that the URL is what the own relay was normalized to
  have hhome : own = some url → s.Home url := by
    rintro rfl
    cases hr : s.own with
    | none =>
        rw [ownRelay_none hr] at hown
        cases hown
    | some r =>
        rw [ownRelay_some hr] at hown
        cases hn : normalizeRelayUrl r with
        | error e =>
            rw [hn] at hown
            cases hown
        | ok url' =>
            rw [hn] at hown
            cases hown
            exact ⟨r, hr, hn⟩
  cases hflag : s.flag with
  | some f =>
      rw [hflag, relayUrl, bind_eq_ok] at h
      obtain ⟨url', hn, heq⟩ := h
      cases heq
      exact ⟨f, by simp [Sources.own, hflag], hn⟩
  | none =>
      rw [hflag] at h
      cases hhost : s.codeHost with
      -- a host from the code is trusted only if it is the own relay
      | some host =>
          rw [hhost] at h
          obtain ⟨url', -, heq⟩ := bind_eq_ok.mp h
          obtain ⟨rfl, htrust⟩ := Prod.mk.inj (Except.ok.inj heq)
          exact hhome (by simpa using htrust)
      | none =>
          rw [hhost] at h
          cases own with
          | none => cases h
          | some r =>
              cases h
              exact hhome rfl

/-- A URL that is not the user's own goes without a token. -/
theorem token_of_not_home {s : Sources} {cfg : RelayCfg} (h : s.resolve = .ok cfg)
    (haway : ¬ s.Home cfg.url) : cfg.token = none := by
  obtain ⟨own, trusted, hown, hurl, htoken⟩ := resolve_eq_ok.mp h
  cases trusted with
  | true => exact absurd (home_of_trusted hown hurl) haway
  | false => exact htoken

/-- The tokens decide neither the URL nor an error. -/
theorem resolve_withTokens (s : Sources) (envToken relayToken : Option Str) :
    (s.withTokens envToken relayToken).resolve.map RelayCfg.url = s.resolve.map RelayCfg.url := by
  have hown : ownRelay s.flag s.envUrl ⟨s.file.relay, relayToken⟩ = ownRelay s.flag s.envUrl s.file := by
    cases s.flag with
    | some f => rfl
    | none =>
        cases s.envUrl with
        | some e => rfl
        | none => rfl
  show ((ownRelay s.flag s.envUrl ⟨s.file.relay, relayToken⟩) >>= _).map _ = _
  rw [hown, resolve, resolveRelay]
  cases ownRelay s.flag s.envUrl s.file with
  | error e => rfl
  | ok own =>
      show ((relayUrl s.flag s.codeHost own) >>= _).map _ = ((relayUrl s.flag s.codeHost own) >>= _).map _
      cases relayUrl s.flag s.codeHost own with
      | error e => rfl
      | ok r => rfl

theorem resolve_withTokens_of_not_home {s : Sources} (haway : ∀ cfg, s.resolve = .ok cfg → ¬ s.Home cfg.url)
    (envToken relayToken : Option Str) : (s.withTokens envToken relayToken).resolve = s.resolve := by
  have hurl := resolve_withTokens s envToken relayToken
  cases hr : s.resolve with
  | error e =>
      rw [hr] at hurl
      cases hr' : (s.withTokens envToken relayToken).resolve with
      | error e' =>
          rw [hr'] at hurl
          replace hurl : (.error e' : Except Anyhow Str) = .error e := hurl
          cases hurl
          rfl
      | ok cfg' =>
          rw [hr'] at hurl
          cases hurl
  | ok cfg =>
      rw [hr] at hurl
      cases hr' : (s.withTokens envToken relayToken).resolve with
      | error e' =>
          rw [hr'] at hurl
          cases hurl
      | ok cfg' =>
          rw [hr'] at hurl
          replace hurl : cfg'.url = cfg.url := Except.ok.inj hurl
          -- neither run sends a token, since both are at the same foreign URL
          have hnone := token_of_not_home hr (haway cfg hr)
          have hnone' := token_of_not_home hr' (by
            rw [hurl]
            exact haway cfg hr)
          obtain ⟨url, token⟩ := cfg
          obtain ⟨url', token'⟩ := cfg'
          cases hurl
          cases hnone
          cases hnone'
          rfl

end Sources

section token

variable {L : CodeLib}

/-- **The token never follows a foreign code**: for whatever `parse` makes of a text, a URL returned with
a token is the user's own relay's; and with other tokens the result is the same, unless it is that
URL. -/
theorem token_stays_home {text : Str} {code : RendezvousCode} (_ : RvCode.parse L text = .ok code)
    {s : Sources} (_ : s.codeHost = code.relayHost) :
    (∀ cfg, s.resolve = .ok cfg → cfg.token.isSome → s.Home cfg.url) ∧
    ∀ envToken relayToken, (∀ cfg, s.resolve = .ok cfg → ¬ s.Home cfg.url) →
      (s.withTokens envToken relayToken).resolve = s.resolve := by
  refine ⟨?_, fun _ _ haway => Sources.resolve_withTokens_of_not_home haway _ _⟩
  intro cfg hcfg htoken
  by_contra haway
  rw [Sources.token_of_not_home hcfg haway] at htoken
  cases htoken

/-- A code that names somebody else's relay, for a user with a relay and a token. -/
def Sources.stranger : Sources :=
  ⟨none, some "evil.example".toList, none, some "t0ken".toList, ⟨some "wss://relay.example".toList, none⟩⟩

theorem token_stays_home_stranger :
    (∀ cfg, Sources.stranger.resolve = .ok cfg → cfg.token.isSome → Sources.stranger.Home cfg.url) ∧
    ∀ envToken relayToken, (∀ cfg, Sources.stranger.resolve = .ok cfg → ¬ Sources.stranger.Home cfg.url) →
      (Sources.stranger.withTokens envToken relayToken).resolve = Sources.stranger.resolve :=
  token_stays_home (RvCode.parse_urlSpelling (L := CodeLib.channel7) 7 140 251 (by decide)
    (List.all_eq_true.mp (by decide))) rfl

end token

/-! ## Precedence -/

namespace Sources

/-- The URL, if there is one. -/
def outcome (s : Sources) : Option Str := (s.resolve.map RelayCfg.url).toOption

/-- The source that is to decide: the flag, else the code's host, else the environment's URL, else the
file's. -/
def winner (s : Sources) : Sources :=
  match s.flag, s.codeHost, s.envUrl with
  | some f, _, _ => ⟨some f, none, none, none, ⟨none, none⟩⟩
  | none, some h, _ => ⟨none, some h, none, none, ⟨none, none⟩⟩
  | none, none, some e => ⟨none, none, some e, none, ⟨none, none⟩⟩
  | none, none, none => ⟨none, none, none, none, ⟨s.file.relay, none⟩⟩

/-- The user's own relay, if there is one, has the form of a URL. -/
def OwnOk (s : Sources) : Prop := ∀ r, s.own = some r → (normalizeRelayUrl r).isOk

theorem outcome_eq_some {s : Sources} {url : Str} : s.outcome = some url ↔
    ∃ own trusted, ownRelay s.flag s.envUrl s.file = .ok own ∧
      relayUrl s.flag s.codeHost own = .ok (url, trusted) := by
  have hok : s.outcome = some url ↔ ∃ cfg, s.resolve = .ok cfg ∧ cfg.url = url := by
    rw [outcome]
    cases s.resolve with
    | error e => simp [Except.map, Except.toOption]
    | ok cfg => simp [Except.map, Except.toOption]
  rw [hok]
  constructor
  · rintro ⟨cfg, hcfg, rfl⟩
    obtain ⟨own, trusted, hown, hurl, -⟩ := resolve_eq_ok.mp hcfg
    exact ⟨own, trusted, hown, hurl⟩
  · rintro ⟨own, trusted, hown, hurl⟩
    exact ⟨⟨url, _⟩, resolve_eq_ok.mpr ⟨own, trusted, hown, hurl, rfl⟩, rfl⟩

/-- The user's own relay is malformed, or there is something to go on with. -/
theorem ownRelay_cases (s : Sources) :
    (s.OwnOk ∧ ∃ own, ownRelay s.flag s.envUrl s.file = .ok own) ∨
    (¬ s.OwnOk ∧ ∃ e, ownRelay s.flag s.envUrl s.file = .error e) := by
  cases hr : s.own with
  | none => exact .inl ⟨by simp [OwnOk, hr], none, ownRelay_none hr⟩
  | some r =>
      rw [ownRelay_some hr]
      cases hn : normalizeRelayUrl r with
      | ok url => exact .inl ⟨by simp [OwnOk, hr, hn, Except.isOk, Except.toBool], some url, rfl⟩
      | error e => exact .inr ⟨by simp [OwnOk, hr, hn, Except.isOk, Except.toBool], e, rfl⟩

theorem toOption_eq_some {x : Except Anyhow Str} {url : Str} : x.toOption = some url ↔ x = .ok url := by
  cases x <;> simp [Except.toOption]

/-- With a flag, the flag alone decides. -/
theorem outcome_flag {s : Sources} {f : Str} (h : s.flag = some f) :
    s.outcome = (normalizeRelayUrl f).toOption := by
  ext url
  rw [outcome_eq_some, toOption_eq_some, h]
  simp only [ownRelay, relayUrl]
  constructor
  · rintro ⟨own, trusted, -, hurl⟩
    obtain ⟨url', hn, heq⟩ := bind_eq_ok.mp hurl
    cases heq
    exact hn
  · intro hn
    exact ⟨some url, true, by rw [hn]; rfl, bind_eq_ok.mpr ⟨url, hn, rfl⟩⟩

/-- Without one, the code's host decides, as long as the user's own relay is not malformed. -/
theorem outcome_host {s : Sources} {h : Str} (hflag : s.flag = none) (hhost : s.codeHost = some h)
    (hok : s.OwnOk) : s.outcome = (hostUrl h).toOption := by
  rcases s.ownRelay_cases with ⟨-, own, hown⟩ | ⟨hbad, -⟩
  · ext url
    rw [outcome_eq_some, toOption_eq_some, hown, hflag, hhost]
    constructor
    · rintro ⟨own', trusted, -, hurl⟩
      obtain ⟨url', hn, heq⟩ := bind_eq_ok.mp hurl
      cases heq
      exact hn
    · intro hn
      exact ⟨own, _, rfl, bind_eq_ok.mpr ⟨url, hn, rfl⟩⟩
  · exact absurd hok hbad

/-- A malformed relay of the user's own makes resolution fail. -/
theorem outcome_of_not_ownOk {s : Sources} (hbad : ¬ s.OwnOk) : s.outcome = none := by
  rcases s.ownRelay_cases with ⟨hok, -⟩ | ⟨-, e, hown⟩
  · exact absurd hok hbad
  · refine Option.eq_none_iff_forall_ne_some.mpr ?_
    intro url h
    obtain ⟨own, trusted, hown', -⟩ := outcome_eq_some.mp h
    rw [hown] at hown'
    cases hown'

/-- Without a flag and a host, the user's own relay decides. -/
theorem outcome_own {s : Sources} (hflag : s.flag = none) (hhost : s.codeHost = none) :
    s.outcome = s.own.bind fun r => (normalizeRelayUrl r).toOption := by
  ext url
  rw [outcome_eq_some, Option.bind_eq_some_iff, hhost]
  cases hr : s.own with
  | none =>
      rw [ownRelay_none hr, hflag]
      constructor
      · rintro ⟨_, trusted, hown, hurl⟩
        cases hown
        cases hurl
      · rintro ⟨r, hr', -⟩
        cases hr'
  | some r =>
      rw [ownRelay_some hr, hflag]
      constructor
      · rintro ⟨own, trusted, hown, hurl⟩
        cases hn : normalizeRelayUrl r with
        | error e =>
            rw [hn] at hown
            cases hown
        | ok url' =>
            rw [hn] at hown
            cases hown
            cases hurl
            exact ⟨r, rfl, toOption_eq_some.mpr hn⟩
      · rintro ⟨r', hr', hn⟩
        cases hr'
        exact ⟨some url, true, by rw [toOption_eq_some.mp hn]; rfl, rfl⟩

/-- **When the overridden sources make no difference**: with a flag, or without a host in the code; else
when the user's own relay, which the host overrides, is well formed or absent, or the host's own URL is
malformed. -/
theorem decided_iff (s : Sources) : s.outcome = s.winner.outcome ↔
    s.flag.isSome ∨ s.codeHost = none ∨ s.OwnOk ∨
      ∃ h, s.codeHost = some h ∧ (hostUrl h).isOk = false := by
  cases hflag : s.flag with
  | some f =>
      have hwin : s.winner.flag = some f := by simp [winner, hflag]
      simp [outcome_flag hflag, outcome_flag hwin]
  | none =>
      cases hhost : s.codeHost with
      | none =>
          have hwin : s.winner.flag = none ∧ s.winner.codeHost = none ∧ s.winner.own = s.own := by
            cases henv : s.envUrl with
            | none => simp [winner, own, hflag, hhost, henv]
            | some e => simp [winner, own, hflag, hhost, henv]
          simp [outcome_own hflag hhost, outcome_own hwin.1 hwin.2.1, hwin.2.2]
      | some h =>
          have hwin : s.winner = ⟨none, some h, none, none, ⟨none, none⟩⟩ := by
            simp [winner, hflag, hhost]
          have hout : s.winner.outcome = (hostUrl h).toOption := by
            rw [hwin]
            exact outcome_host rfl rfl (by simp [OwnOk, own])
          rw [hout]
          -- the host decides, unless the own relay fails first
          by_cases hok : s.OwnOk
          · simp [outcome_host hflag hhost hok, hok]
          · rw [outcome_of_not_ownOk hok]
            cases hn : hostUrl h with
            | error e => simp [hn, Except.toOption, Except.isOk, Except.toBool]
            | ok url => simp [hn, hok, Except.toOption, Except.isOk, Except.toBool]

/-- A malformed `B2P_RELAY` makes a code unusable that names its relay. -/
theorem not_decided_malformedEnv : ∃ s : Sources, s.flag = none ∧ s.codeHost = some "relay.example".toList ∧
    s.outcome = none ∧ s.winner.outcome = some "wss://relay.example".toList :=
  ⟨⟨none, some "relay.example".toList, some "relay.example".toList, none, ⟨none, none⟩⟩, rfl, rfl, rfl, rfl⟩

end Sources

end B2p
