import Ekapkgs.Substituter

/-!
# What the substituter proxy returns

Entries are only ever added to the cache. A request returns what upstream answered
as long as nothing else stands in the cache for its hash when it looks again.
-/

namespace Ekapkgs
open Runs

/-- What a response says about a hash. -/
def entryFor (hash : String) (available : List ManifestEntry) : Option ManifestEntry :=
  available.reverse.find? fun entry => entry.hash = hash

variable {cache : NarinfoMap} {hash : String} {available : List ManifestEntry} {now : Nat}

theorem cacheResponse_apply : cacheResponse cache available now hash =
    match entryFor hash available with
    | some entry => some (entry, now)
    | none => cache hash := by
  unfold cacheResponse entryFor
  rw [← List.foldr_reverse]
  induction available.reverse with
  | nil => rfl
  | cons entry rest ih =>
    rw [List.foldr_cons, Function.update_apply]
    by_cases h : entry.hash = hash
    · rw [if_pos h.symm, List.find?_cons_of_pos (by simpa using h)]
    · rw [if_neg fun heq => h heq.symm, List.find?_cons_of_neg (by simpa using h), ih]

variable {ι : Type} [DecidableEq ι] {s s' : Proxy ι} {i : ι}

theorem Proxy.setPhase_phase (s : Proxy ι) (i : ι) (p : ProxyPhase) (j : ι) :
    (s.setPhase i p).phase j = if j = i then p else s.phase j := Function.update_apply ..

/-! ## What a step does -/

/-- How a request goes on without writing the cache. -/
inductive Proxy.Moves (s : Proxy ι) : ProxyPhase → ProxyCall → ProxyPhase → Prop
  | lookup (name : String) : Moves s (.received name) .lookup (s.lookup ((stripSuffix ".narinfo" name).getD name))
  | answer (hash : String) : Moves s (.negotiating hash) .answer (.answered hash (s.upstream hash))
  | receive (hash : String) (available : List ManifestEntry) : Moves s (.answered hash available) .receive (.fetched hash available s.now)
  | unanswered (hash : String) : Moves s (.negotiating hash) .fail (.negotiated hash none)
  | lost (hash : String) (available : List ManifestEntry) : Moves s (.answered hash available) .fail (.negotiated hash none)
  | lookupAgain (hash : String) (response : Option (List ManifestEntry × Nat)) :
      Moves s (.negotiated hash response) .lookupAgain (.returned hash response ((s.narinfoCache hash).map Prod.fst))

inductive Proxy.Steps (s : Proxy ι) : ProxyEvent ι → Proxy ι → Prop
  | upstream (upstream : String → List ManifestEntry) : Steps s (.upstream upstream) { s with upstream }
  | tick (elapsed : Nat) : Steps s (.tick elapsed) { s with now := s.now + elapsed }
  | cache {i : ι} {hash : String} {available : List ManifestEntry} {now : Nat} : s.phase i = .fetched hash available now →
      Steps s (.call i .cache)
        ({ s with narinfoCache := cacheResponse s.narinfoCache available now }.setPhase i (.negotiated hash (some (available, now))))
  | move {i : ι} {c : ProxyCall} {p : ProxyPhase} : s.Moves (s.phase i) c p → Steps s (.call i c) (s.setPhase i p)

theorem proxyStep_cases {e : ProxyEvent ι} (h : proxyStep s e s') : s.Steps e s' := by
  cases e with
  | upstream upstream => cases h; exact .upstream upstream
  | tick elapsed => cases h; exact .tick elapsed
  | call i c =>
    have hcall : s.call i c = some s' := h
    unfold Proxy.call at hcall
    split at hcall
    next name hphase => cases hcall; exact .move (hphase ▸ .lookup name)
    next hash hphase => cases hcall; exact .move (hphase ▸ .answer hash)
    next hash available hphase => cases hcall; exact .move (hphase ▸ .receive hash available)
    next hash available now hphase => cases hcall; exact .cache hphase
    next hash hphase => cases hcall; exact .move (hphase ▸ .unanswered hash)
    next hash available hphase => cases hcall; exact .move (hphase ▸ .lost hash available)
    next hash response hphase => cases hcall; exact .move (hphase ▸ .lookupAgain hash response)
    next => cases hcall

/-! ## Where an entry comes from -/

def ProxyPhase.answer : ProxyPhase → Option (String × List ManifestEntry)
  | .answered hash available => some (hash, available)
  | .fetched hash available _ => some (hash, available)
  | .negotiated hash (some (available, _)) => some (hash, available)
  | .returned hash (some (available, _)) _ => some (hash, available)
  | _ => none

def ProxyPhase.response : ProxyPhase → Option (List ManifestEntry × Nat)
  | .fetched _ available now => some (available, now)
  | .negotiated _ response => response
  | .returned _ response _ => response
  | _ => none

section
variable (start : Proxy ι) (es : List (ProxyEvent ι))

/-- Upstream had this answer for the request when it was asked. -/
def AnswerMade (i : ι) (hash : String) (available : List ManifestEntry) : Prop :=
  ∃ before after t, es = before ++ .call i .answer :: after ∧ Run proxyStep start before t ∧ t.phase i = .negotiating hash ∧
    available = t.upstream hash

def AnswerReceived (available : List ManifestEntry) (now : Nat) : Prop :=
  ∃ before after t i hash, es = before ++ .call i .receive :: after ∧ Run proxyStep start before t ∧
    t.phase i = .answered hash available ∧ now = t.now

structure Sourced (s : Proxy ι) : Prop where
  answer : ∀ i hash available, (s.phase i).answer = some (hash, available) → AnswerMade start es i hash available
  response : ∀ i available now, (s.phase i).response = some (available, now) → AnswerReceived start es available now
  cached : ∀ hash entry now, s.narinfoCache hash = some (entry, now) →
    ∃ available, AnswerReceived start es available now ∧ entryFor hash available = some entry
  fresh : ∀ i hash entry fetchedAt now, s.phase i = .returnedFresh hash entry fetchedAt now →
    now - fetchedAt < cacheTtl ∧ ∃ available, AnswerReceived start es available fetchedAt ∧ entryFor hash available = some entry

end

variable {start : Proxy ι} {es : List (ProxyEvent ι)} {e : ProxyEvent ι}

theorem AnswerMade.more {available : List ManifestEntry} (h : AnswerMade start es i hash available) : AnswerMade start (es ++ [e]) i hash available := by
  obtain ⟨before, after, t, rfl, hrest⟩ := h
  exact ⟨before, after ++ [e], t, by rw [List.append_assoc, List.cons_append], hrest⟩

theorem AnswerReceived.more {available : List ManifestEntry} (h : AnswerReceived start es available now) : AnswerReceived start (es ++ [e]) available now := by
  obtain ⟨before, after, t, i, hash, rfl, hrest⟩ := h
  exact ⟨before, after ++ [e], t, i, hash, by rw [List.append_assoc, List.cons_append], hrest⟩

theorem Sourced.quiet (h : Sourced start es s) (hphase : s'.phase = s.phase) (hcache : s'.narinfoCache = s.narinfoCache) :
    Sourced start (es ++ [e]) s' where
  answer i hash available hi := (h.answer i hash available (hphase ▸ hi)).more
  response i available now hi := (h.response i available now (hphase ▸ hi)).more
  cached hash entry now hi := by
    obtain ⟨available, hreceived, hentry⟩ := h.cached hash entry now (hcache ▸ hi)
    exact ⟨available, hreceived.more, hentry⟩
  fresh i hash entry fetchedAt now hi := by
    obtain ⟨hlt, available, hreceived, hentry⟩ := h.fresh i hash entry fetchedAt now (hphase ▸ hi)
    exact ⟨hlt, available, hreceived.more, hentry⟩

/-- Only the phase of one request is new. -/
theorem Sourced.setPhase {p : ProxyPhase} (h : Sourced start es s)
    (hanswer : ∀ hash available, p.answer = some (hash, available) → AnswerMade start es i hash available)
    (hresponse : ∀ available now, p.response = some (available, now) → AnswerReceived start es available now)
    (hfresh : ∀ hash entry fetchedAt now, p = .returnedFresh hash entry fetchedAt now →
      now - fetchedAt < cacheTtl ∧ ∃ available, AnswerReceived start es available fetchedAt ∧ entryFor hash available = some entry) :
    Sourced start es (s.setPhase i p) where
  answer j hash available hj := by
    rw [Proxy.setPhase_phase] at hj
    split_ifs at hj with heq
    · exact heq ▸ hanswer hash available hj
    · exact h.answer j hash available hj
  response j available now hj := by
    rw [Proxy.setPhase_phase] at hj
    split_ifs at hj with heq
    · exact hresponse available now hj
    · exact h.response j available now hj
  cached := h.cached
  fresh j hash entry fetchedAt now hj := by
    rw [Proxy.setPhase_phase] at hj
    split_ifs at hj with heq
    · exact hfresh hash entry fetchedAt now hj
    · exact h.fresh j hash entry fetchedAt now hj

theorem Sourced.step (hrun : Run proxyStep start es s) (h : Sourced start es s) (hstep : proxyStep s e s') : Sourced start (es ++ [e]) s' := by
  cases proxyStep_cases hstep with
  | upstream | tick => exact h.quiet rfl rfl
  | @cache i hash available now hphase =>
    have hmore : Sourced start (es ++ [.call i .cache]) s := h.quiet rfl rfl
    have hreceived := hmore.response i available now (by rw [hphase]; rfl)
    have hwritten : Sourced start (es ++ [.call i .cache]) { s with narinfoCache := cacheResponse s.narinfoCache available now } := by
      refine ⟨hmore.answer, hmore.response, fun hash' entry time hentry => ?_, hmore.fresh⟩
      dsimp only at hentry
      rw [cacheResponse_apply] at hentry
      split at hentry
      next entry' hfound =>
        cases hentry
        exact ⟨available, hreceived, hfound⟩
      next => exact hmore.cached hash' entry time hentry
    refine hwritten.setPhase (fun hash' available' heq => ?_) (fun available' now' heq => ?_) nofun
    · cases heq
      exact hmore.answer i hash available (by rw [hphase]; rfl)
    · cases heq
      exact hreceived
  | @move i c p hmove =>
    have hmore : Sourced start (es ++ [.call i c]) s := h.quiet rfl rfl
    have hold {q : ProxyPhase} (hq : s.phase i = q) : (∀ hash available, q.answer = some (hash, available) → AnswerMade start (es ++ [.call i c]) i hash available) ∧
        ∀ available now, q.response = some (available, now) → AnswerReceived start (es ++ [.call i c]) available now :=
      hq ▸ ⟨hmore.answer i, hmore.response i⟩
    generalize hphase : s.phase i = q at hmove
    cases hmove with
    | lookup name =>
      unfold Proxy.lookup
      split
      next entry fetchedAt hcached =>
        split_ifs with hlt
        · refine hmore.setPhase nofun nofun fun hash' entry' fetchedAt' now' heq => ?_
          cases heq
          exact ⟨hlt, hmore.cached _ entry fetchedAt hcached⟩
        · exact hmore.setPhase nofun nofun nofun
      next => exact hmore.setPhase nofun nofun nofun
    | answer hash =>
      refine hmore.setPhase (fun hash' available heq => ?_) nofun nofun
      cases heq
      exact ⟨es, [], s, rfl, hrun, hphase, rfl⟩
    | receive hash available =>
      refine hmore.setPhase (hold hphase).1 (fun available' now heq => ?_) nofun
      cases heq
      exact ⟨es, [], s, i, hash, rfl, hrun, hphase, rfl⟩
    | unanswered | lost => exact hmore.setPhase nofun nofun nofun
    | lookupAgain hash response =>
      refine hmore.setPhase (fun hash' available heq => ?_) (hold hphase).2 nofun
      refine (hold hphase).1 hash' available ?_
      cases response <;> exact heq

variable {upstream : String → List ManifestEntry} {requests : ι → String}

theorem sourced_run (hrun : Run proxyStep (.start upstream requests) es s) : Sourced (.start upstream requests) es s :=
  hrun.history (I := Sourced (.start upstream requests)) (fun _ _ _ _ hrun h hstep => h.step hrun hstep) ⟨nofun, nofun, nofun, nofun⟩

/-! ## What a request finds when it looks again -/

/-- The cache has what upstream answered, for each request that is about to look again. -/
def Current (s : Proxy ι) : Prop := ∀ i hash available now, s.phase i = .negotiated hash (some (available, now)) →
  (s.narinfoCache hash).map Prod.fst = entryFor hash available

/-- The response has no other entry for the hash of a request that is about to look
again. -/
def ProxyPhase.LeavesAnswer (p : ProxyPhase) (available : List ManifestEntry) : Prop :=
  match p with
  | .negotiated hash (some (answer, _)) => ∀ entry ∈ entryFor hash available, entryFor hash answer = some entry
  | _ => True

/-- A response without an entry for its own hash finds none cached, and a response
disturbs no request that is about to look again. -/
def KeepsAnswers (s : Proxy ι) : ProxyEvent ι → Prop
  | .call i .cache =>
    match s.phase i with
    | .fetched hash available _ => (entryFor hash available = none → s.narinfoCache hash = none) ∧ ∀ j, (s.phase j).LeavesAnswer available
    | _ => True
  | _ => True

instance (p : ProxyPhase) (available : List ManifestEntry) : Decidable (p.LeavesAnswer available) := by
  unfold ProxyPhase.LeavesAnswer
  split <;> infer_instance

instance [Fintype ι] (s : Proxy ι) (e : ProxyEvent ι) : Decidable (KeepsAnswers s e) := by
  unfold KeepsAnswers
  split
  · split <;> infer_instance
  · infer_instance

/-- Each step keeps the answers, or the next lookup of some request is not its answer. -/
theorem Current.step_iff (h : Current s) {e : ProxyEvent ι} (hstep : proxyStep s e s') : Current s' ↔ KeepsAnswers s e := by
  cases proxyStep_cases hstep with
  | upstream | tick => exact ⟨fun _ => trivial, fun _ => h⟩
  | @cache i hash available now hphase =>
    unfold KeepsAnswers
    dsimp only
    rw [hphase]
    constructor
    · intro hcurrent
      constructor
      · intro hnone
        have hown := hcurrent i hash available now (by rw [Proxy.setPhase_phase, if_pos rfl])
        change (cacheResponse s.narinfoCache available now hash).map Prod.fst = _ at hown
        rw [cacheResponse_apply, hnone] at hown
        exact Option.map_eq_none_iff.mp hown
      · intro j
        unfold ProxyPhase.LeavesAnswer
        split
        next hash' answer now' hj =>
          intro entry hentry
          have hne : j ≠ i := by
            rintro rfl
            cases hphase.symm.trans hj
          have hother := hcurrent j hash' answer now' (by rw [Proxy.setPhase_phase, if_neg hne]; exact hj)
          change (cacheResponse s.narinfoCache available now hash').map Prod.fst = _ at hother
          rw [cacheResponse_apply, hentry] at hother
          exact hother.symm
        next => trivial
    · rintro ⟨hown, hothers⟩ j hash' available' now' hj
      change (cacheResponse s.narinfoCache available now hash').map Prod.fst = _
      rw [cacheResponse_apply]
      rw [Proxy.setPhase_phase] at hj
      split_ifs at hj with heq
      · cases hj
        split
        next entry hentry => exact hentry.symm
        next hnone => rw [hown hnone, hnone]; rfl
      · split
        next entry hentry =>
          have hleaves := hothers j
          unfold ProxyPhase.LeavesAnswer at hleaves
          rw [hj] at hleaves
          exact (hleaves entry hentry).symm
        next => exact h j hash' available' now' hj
  | @move i c p hmove =>
    have hkeeps : KeepsAnswers s (.call i c) := by
      cases c with
      | cache => generalize s.phase i = q at hmove; cases hmove
      | _ => trivial
    refine ⟨fun _ => hkeeps, fun _ j hash available now hj => ?_⟩
    rw [Proxy.setPhase_phase] at hj
    split_ifs at hj with heq
    · subst hj
      generalize s.phase i = q at hmove
      generalize hp : ProxyPhase.negotiated hash (some (available, now)) = p at hmove
      cases hmove with
      | lookup name =>
        unfold Proxy.lookup at hp
        split at hp
        · split_ifs at hp
        · cases hp
      | _ => cases hp
    · exact h j hash available now hj

structure FollowsUpstream (start : Proxy ι) (es : List (ProxyEvent ι)) (s : Proxy ι) : Prop where
  answered : ∀ i hash available now result, s.phase i = .returned hash (some (available, now)) result →
    AnswerMade start es i hash available ∧ result = entryFor hash available ∧ (s.phase i).reply = some (.of (entryFor hash available))
  fresh : ∀ i hash entry fetchedAt now, s.phase i = .returnedFresh hash entry fetchedAt now →
    now - fetchedAt < cacheTtl ∧ ∃ available, AnswerReceived start es available fetchedAt ∧ entryFor hash available = some entry

/-- What a request has returned was current. -/
def ReturnedCurrent (s : Proxy ι) : Prop := ∀ i hash available now result, s.phase i = .returned hash (some (available, now)) result →
  result = entryFor hash available

theorem ReturnedCurrent.step (h : ReturnedCurrent s) (hcurrent : Current s) {e : ProxyEvent ι} (hstep : proxyStep s e s') : ReturnedCurrent s' := by
  cases proxyStep_cases hstep with
  | upstream | tick => exact h
  | cache hphase =>
    intro j hash available now result hj
    rw [Proxy.setPhase_phase] at hj
    split_ifs at hj
    exact h j hash available now result hj
  | @move i c p hmove =>
    intro j hash available now result hj
    rw [Proxy.setPhase_phase] at hj
    split_ifs at hj
    · subst hj
      generalize hphase : s.phase i = q at hmove
      generalize hp : ProxyPhase.returned hash (some (available, now)) result = p at hmove
      cases hmove with
      | lookup name =>
        unfold Proxy.lookup at hp
        split at hp
        · split_ifs at hp
        · cases hp
      | lookupAgain hash' response =>
        cases hp
        exact hcurrent i hash available now hphase
      | _ => cases hp
    · exact h j hash available now result hj

/-- A run that keeps its answers follows upstream. -/
theorem proxy_followsUpstream (hrun : Run (guarded proxyStep KeepsAnswers) (.start upstream requests) es s) :
    FollowsUpstream (.start upstream requests) es s := by
  have hsourced := sourced_run hrun.unguarded
  have hinv : Current s ∧ ReturnedCurrent s := by
    refine hrun.invariant (I := fun s => Current s ∧ ReturnedCurrent s) (fun t e t' h hstep => ?_) ⟨nofun, nofun⟩
    exact ⟨(h.1.step_iff hstep.2).mpr hstep.1, h.2.step h.1 hstep.2⟩
  refine ⟨fun i hash available now result hi => ?_, hsourced.fresh⟩
  have hresult := hinv.2 i hash available now result hi
  exact ⟨hsourced.answer i hash available (by rw [hi]; rfl), hresult, by rw [hi, hresult]; rfl⟩

/-! ## An entry that upstream forgets -/

def helloEntry : ManifestEntry :=
  { storePath := "/nix/store/abc-hello", references := [], narHash := "sha256:n", narSize := 1, signatures := [], ca := "", url := "nar/n",
    compression := .none, fileHash := "", fileSize := 0 }

def helloUpstream (hash : String) : List ManifestEntry := if hash = "abc" then [helloEntry] else []

def twoLookups : Proxy Bool := .start helloUpstream fun _ => "abc.narinfo"

def negotiation (i : Bool) : List (ProxyEvent Bool) :=
  [.call i .lookup, .call i .answer, .call i .receive, .call i .cache, .call i .lookupAgain]

def freshLater : List (ProxyEvent Bool) := negotiation false ++ [.tick 7, .call true .lookup]

theorem proxy_followsUpstream_freshLater : ∃ s, s.phase false = .returned "abc" (some ([helloEntry], 0)) (some helloEntry) ∧
    s.phase true = .returnedFresh "abc" helloEntry 0 7 ∧ FollowsUpstream twoLookups freshLater s := by
  have hphases : (freshLater.foldlM (fun s e => if KeepsAnswers s e then s.next e else none) twoLookups).map (fun s => (s.phase false, s.phase true)) =
      some (.returned "abc" (some ([helloEntry], 0)) (some helloEntry), .returnedFresh "abc" helloEntry 0 7) := by decide
  obtain ⟨s, hs, heq⟩ := Option.map_eq_some_iff.mp hphases
  obtain ⟨hfalse, htrue⟩ := Prod.mk.inj heq
  exact ⟨s, hfalse, htrue, proxy_followsUpstream (run_of_foldlM_guarded hs)⟩

def forgotten : List (ProxyEvent Bool) := negotiation false ++ [.tick cacheTtl, .upstream fun _ => []] ++ negotiation true

/-- The entry is out of date and upstream has none, but the second lookup finds it. -/
theorem forgotten_entry_returned : ¬ ∀ es s, Run proxyStep twoLookups es s → FollowsUpstream twoLookups es s := by
  intro h
  have hphase : (forgotten.foldlM Proxy.next twoLookups).map (fun s => s.phase true) = some (.returned "abc" (some ([], cacheTtl)) (some helloEntry)) := rfl
  obtain ⟨s, hs, hreturned⟩ := Option.map_eq_some_iff.mp hphase
  have hresult := ((h forgotten s (run_of_foldlM hs)).answered true "abc" [] cacheTtl _ hreturned).2.1
  cases hresult

end Ekapkgs
