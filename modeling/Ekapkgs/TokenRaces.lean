import Ekapkgs.Tokens

/-!
# Which tokens stay in the store file

As long as nothing in the file is overwritten, the file holds every token that
a request has written or is still writing, and one write at a time goes on.
-/

namespace Ekapkgs
open Runs

variable {ι : Type} {json : Json}

/-! ## What a request has put in the file -/

/-- The token that a request has written, or is writing. -/
def MintPhase.minted : MintPhase → Option String
  | .saving _ tokenValue _ _ => some tokenValue
  | .responded (.ok tokenValue _) => some tokenValue
  | _ => none

/-- A request adds its token to what it will write. -/
def MintPhase.Own : MintPhase → Prop
  | .created _ tokenValue store => tokenValue ∈ store.tokens.map Token.token
  | .saving _ tokenValue store _ => tokenValue ∈ store.tokens.map Token.token
  | _ => True

variable (json) in
/-- The file is open for writing and not all of it is written. -/
def MintPhase.Writing : MintPhase → Prop
  | .saving _ _ store written => written < (json.toStringPretty store).length
  | _ => False

variable (json) in
/-- The token store that the file holds, or will hold once its writer is done. -/
inductive Holding (s : TokenServer ι) (kept : TokenStore) : Prop where
  | settled (hload : loadFile json s.file = some kept) (hidle : ∀ i, ¬ (s.phase i).Writing json)
  | writing (i : ι) (name tokenValue : String) (written : Nat) (hphase : s.phase i = .saving name tokenValue kept written)
      (hlt : written < (json.toStringPretty kept).length)
      (hfile : s.file = some ((json.toStringPretty kept).take written)) (hidle : ∀ j, j ≠ i → ¬ (s.phase j).Writing json)

variable (json) in
structure TokenInv (s : TokenServer ι) : Prop where
  own : ∀ i, (s.phase i).Own
  kept : (∀ i, (s.phase i).minted = none) ∨
    ∃ kept, Holding json s kept ∧ ∀ i tokenValue, (s.phase i).minted = some tokenValue → tokenValue ∈ kept.tokens.map Token.token

/-! ## Writing -/

theorem writeAt_prefix (text : Bytes) {written : Nat} (n : Nat) (h : written ≤ text.length) :
    writeAt (text.take written) written ((text.drop written).take n) =
      text.take (written + ((text.drop written).take n).length) := by
  have hlength : (text.take written).length = written := List.length_take_of_le h
  have hrest : (text.take written).drop (written + ((text.drop written).take n).length) = [] :=
    List.drop_of_length_le (by omega)
  rw [writeAt, List.take_of_length_le (Nat.le_of_eq hlength), hlength, Nat.sub_self, hrest, List.take_add]
  simp [List.take_eq_take_iff]

theorem minted_writing {p : MintPhase} (h : p.Writing json) : p.minted ≠ none := by
  cases p with
  | saving => exact Option.some_ne_none _
  | _ => exact h.elim

theorem toStringPretty_pos (json : Json) (store : TokenStore) : 0 < (json.toStringPretty store).length := by
  by_contra hzero
  have hempty : json.toStringPretty store = [] := List.eq_nil_of_length_eq_zero (by omega)
  -- another store has another text, of which the empty one is a proper prefix
  have hother : (json.toStringPretty ⟨⟨"", "", ⟨true, true⟩, 0⟩ :: store.tokens⟩).length ≠ 0 := by
    intro h
    have hsame := json.fromStr_toStringPretty ⟨⟨"", "", ⟨true, true⟩, 0⟩ :: store.tokens⟩
    rw [List.eq_nil_of_length_eq_zero h, ← hempty, json.fromStr_toStringPretty, Option.some.injEq] at hsame
    simpa using congrArg (fun s => s.tokens.length) hsame
  have hnone := json.fromStr_prefix _ 0 (Nat.pos_of_ne_zero hother)
  rw [List.take_zero, ← hempty, json.fromStr_toStringPretty] at hnone
  cases hnone

theorem create_own {store store' : TokenStore} {name tokenValue : String} {permissions : Permissions} {now : Nat}
    (h : store.create name permissions tokenValue now = some store') : tokenValue ∈ store'.tokens.map Token.token := by
  unfold TokenStore.create at h
  split at h
  · cases h
  · cases h; simp

/-! ## The invariant -/

variable [DecidableEq ι] {adminToken : Option String} {s s' : TokenServer ι} {i : ι} {p : MintPhase}

theorem setPhase_phase (s : TokenServer ι) (i : ι) (p : MintPhase) (j : ι) :
    (s.setPhase i p).phase j = if j = i then p else s.phase j := Function.update_apply ..

/-- A step of one request that leaves the file alone, and neither ends a write
nor takes a token back. -/
theorem TokenInv.move (h : TokenInv json s) (hfile : s'.file = s.file) (hphase : s'.phase = Function.update s.phase i p)
    (hown : p.Own) (hminted : p.minted = (s.phase i).minted) (hbefore : ¬ (s.phase i).Writing json)
    (hafter : ¬ p.Writing json) : TokenInv json s' := by
  have hother : ∀ j, s'.phase j = if j = i then p else s.phase j := fun j => by rw [hphase, Function.update_apply]
  have hmint : ∀ j, (s'.phase j).minted = (s.phase j).minted := by
    intro j
    rw [hother]
    split
    next hj => rw [hj, hminted]
    next => rfl
  have hidle : ∀ j, ¬ (s.phase j).Writing json → ¬ (s'.phase j).Writing json := by
    intro j hj
    rw [hother]
    split
    · exact hafter
    · exact hj
  constructor
  · intro j
    rw [hother]
    split
    · exact hown
    · exact h.own j
  · rcases h.kept with hnone | ⟨kept, hholding, hkept⟩
    · exact .inl fun j => by rw [hmint, hnone]
    · refine .inr ⟨kept, ?_, fun j tokenValue hj => hkept j tokenValue (by rw [← hmint, hj])⟩
      cases hholding with
      | settled hload hall => exact .settled (by rw [hfile, hload]) fun j => hidle j (hall j)
      | writing k name tokenValue written hk hlt hk' hall =>
        have hne : k ≠ i := by
          rintro rfl
          exact hbefore (by rw [hk]; exact hlt)
        refine .writing k name tokenValue written ?_ hlt (by rw [hfile, hk']) fun j hj => hidle j (hall j hj)
        rw [hother, if_neg hne, hk]

/-- Truncating a file whose tokens all go into what is written next. -/
theorem TokenInv.truncate (h : TokenInv json s) {name tokenValue : String} {store stored : TokenStore}
    (hphase : s.phase i = .created name tokenValue store) (hload : loadFile json s.file = some stored)
    (hsubset : stored.tokens ⊆ store.tokens) :
    TokenInv json ({ s with file := some [] }.setPhase i (.saving name tokenValue store 0)) := by
  have hown := h.own i
  rw [hphase] at hown
  -- the file is whole, so nobody else is writing it
  have hidle : ∀ j, ¬ (s.phase j).Writing json := by
    intro j hj
    rcases h.kept with hnone | ⟨kept, hholding, -⟩
    · exact minted_writing hj (hnone j)
    · cases hholding with
      | settled _ hall => exact hall j hj
      | writing k name tokenValue written hk hlt hfile hall =>
        rw [hfile, loadFile, json.fromStr_prefix kept written hlt] at hload
        cases hload
  constructor
  · intro j
    rw [setPhase_phase]
    split
    · exact hown
    · exact h.own j
  · refine .inr ⟨store, ?_, fun j token hj => ?_⟩
    · refine .writing i name tokenValue 0 (by rw [setPhase_phase, if_pos rfl]) (toStringPretty_pos json store) rfl fun j hj => ?_
      rw [setPhase_phase, if_neg hj]
      exact hidle j
    · rw [setPhase_phase] at hj
      split at hj
      · cases hj; exact hown
      · rcases h.kept with hnone | ⟨kept, hholding, hkept⟩
        · exact absurd hj (by rw [show _ = none from hnone j]; exact nofun)
        · have hkept' : kept = stored := by
            cases hholding with
            | settled hload' _ => exact Option.some.inj (hload'.symm.trans hload)
            | writing k _ _ _ hk hlt _ _ => exact absurd (by rw [hk]; exact hlt) (hidle k)
          rw [hkept'] at hkept
          exact List.map_subset _ hsubset (hkept j token hj)

/-- A write of the request that is writing the file. -/
theorem TokenInv.write (h : TokenInv json s) {name tokenValue : String} {store : TokenStore} {written n : Nat}
    {file bytes : Bytes} (hphase : s.phase i = .saving name tokenValue store written) (hfile : s.file = some file)
    (hbytes : ((json.toStringPretty store).drop written).take n = bytes) (hne : bytes ≠ []) :
    TokenInv json ({ s with file := some (writeAt file written bytes) }.setPhase i
      (.saving name tokenValue store (written + bytes.length))) := by
  have hlt : written < (json.toStringPretty store).length := by
    by_contra hge
    rw [List.drop_of_length_le (by omega), List.take_nil] at hbytes
    exact hne hbytes.symm
  have hown := h.own i
  rw [hphase] at hown
  have hwriting : (s.phase i).Writing json := by rw [hphase]; exact hlt
  rcases h.kept with hnone | ⟨kept, hholding, hkept⟩
  · exact absurd (hnone i) (minted_writing hwriting)
  cases hholding with
  | settled _ hall => exact absurd hwriting (hall i)
  | writing k name' tokenValue' written' hk _ hfile' hall =>
    by_cases hki : i = k
    · subst hki
      cases hk.symm.trans hphase
      cases hfile.symm.trans hfile'
      have hfile'' : writeAt ((json.toStringPretty store).take written) written bytes =
          (json.toStringPretty store).take (written + bytes.length) := by
        rw [← hbytes, writeAt_prefix _ n (Nat.le_of_lt hlt)]
      rw [hfile'']
      have hidle : ∀ j, j ≠ i → ¬ ((TokenServer.setPhase { s with
          file := some ((json.toStringPretty store).take (written + bytes.length)) } i
            (.saving name tokenValue store (written + bytes.length))).phase j).Writing json := by
        intro j hj
        rw [setPhase_phase, if_neg hj]
        exact hall j hj
      constructor
      · intro j
        rw [setPhase_phase]
        split
        · exact hown
        · exact h.own j
      · refine .inr ⟨store, ?_, fun j token hj => ?_⟩
        · by_cases hdone : written + bytes.length < (json.toStringPretty store).length
          · exact .writing i name tokenValue _ (by rw [setPhase_phase, if_pos rfl]) hdone rfl hidle
          · refine .settled ?_ fun j => ?_
            · show json.fromStr _ = _
              rw [List.take_of_length_le (by omega), json.fromStr_toStringPretty]
            · by_cases hj : j = i
              · rw [setPhase_phase, if_pos hj]
                exact hdone
              · exact hidle j hj
        · rw [setPhase_phase] at hj
          split at hj
          · cases hj; exact hown
          · exact hkept j token hj
    · exact absurd hwriting (hall i hki)

/-- What a step does: it truncates the file, or writes to it, or goes on to a
phase that says the same about the file. -/
theorem mintStep_cases {call : MintCall} (hstep : mintStep json adminToken s (i, call) s')
    (hguard : NothingOverwritten json s (i, call)) :
    (∃ name tokenValue store, s.phase i = .created name tokenValue store ∧ call = .openTruncate ∧
      s' = { s with file := some [] }.setPhase i (.saving name tokenValue store 0)) ∨
    (∃ name tokenValue store written n file bytes, s.phase i = .saving name tokenValue store written ∧
      s.file = some file ∧ ((json.toStringPretty store).drop written).take n = bytes ∧ bytes ≠ [] ∧
      s' = { s with file := some (writeAt file written bytes) }.setPhase i
        (.saving name tokenValue store (written + bytes.length))) ∨
    ∃ p, s'.file = s.file ∧ s'.phase = Function.update s.phase i p ∧ p.Own ∧ p.minted = (s.phase i).minted ∧
      ¬ (s.phase i).Writing json ∧ ¬ p.Writing json := by
  have quiet : ∀ {p : MintPhase}, some (s.setPhase i p) = some s' → p.Own → p.minted = (s.phase i).minted →
      ¬ (s.phase i).Writing json → ¬ p.Writing json → ∃ p, s'.file = s.file ∧
        s'.phase = Function.update s.phase i p ∧ p.Own ∧ p.minted = (s.phase i).minted ∧
        ¬ (s.phase i).Writing json ∧ ¬ p.Writing json := by
    rintro p ⟨⟩ hown hminted hbefore hafter
    exact ⟨p, rfl, rfl, hown, hminted, hbefore, hafter⟩
  unfold mintStep stepOf mintNext at hstep
  unfold NothingOverwritten at hguard
  cases hphase : s.phase i with
  | received request =>
    rw [hphase] at quiet hstep
    refine .inr (.inr ?_)
    cases call with
    | authorize =>
      dsimp only at hstep
      cases hauthorize : authorize adminToken request with
      | ok name => rw [hauthorize] at hstep; exact quiet hstep trivial rfl id id
      | error response =>
        rw [hauthorize] at hstep
        refine quiet hstep trivial ?_ id id
        unfold authorize at hauthorize
        split at hauthorize
        · cases hauthorize; rfl
        split at hauthorize
        · cases hauthorize; rfl
        split at hauthorize
        · cases hauthorize; rfl
        · cases hauthorize
    | _ => cases hstep
  | loading name =>
    rw [hphase] at quiet hstep
    refine .inr (.inr ?_)
    cases call with
    | openRead =>
      dsimp only at hstep
      split at hstep <;> exact quiet hstep trivial rfl id id
    | fail => exact quiet hstep trivial rfl id id
    | _ => cases hstep
  | reading name contents =>
    rw [hphase] at quiet hstep
    refine .inr (.inr ?_)
    cases call with
    | read n =>
      dsimp only at hstep
      split at hstep
      · cases hstep
      · exact quiet hstep trivial rfl id id
    | readEnd =>
      dsimp only at hstep
      split at hstep
      · cases hstep
      split at hstep
      · cases hstep
      split at hstep <;> exact quiet hstep trivial rfl id id
    | fail => exact quiet hstep trivial rfl id id
    | _ => cases hstep
  | loaded name store =>
    rw [hphase] at quiet hstep
    refine .inr (.inr ?_)
    cases call with
    | create tokenValue now =>
      dsimp only at hstep
      split at hstep
      next => exact quiet hstep trivial rfl id id
      next store' hstore => exact quiet hstep (create_own hstore) rfl id id
    | fail => exact quiet hstep trivial rfl id id
    | _ => cases hstep
  | created name tokenValue store =>
    rw [hphase] at quiet hstep
    cases call with
    | openTruncate => cases hstep; exact .inl ⟨name, tokenValue, store, rfl, rfl, rfl⟩
    | fail => exact .inr (.inr (quiet hstep trivial rfl id id))
    | _ => cases hstep
  | saving name tokenValue store written =>
    rw [hphase] at quiet hstep hguard
    cases call with
    | write n =>
      dsimp only at hstep
      split at hstep
      · cases hstep
      next file hfile =>
        split at hstep
        · cases hstep
        next hne =>
          cases hstep
          exact .inr (.inl ⟨name, tokenValue, store, written, n, file, _, rfl, hfile, rfl, hne, rfl⟩)
    | respond =>
      dsimp only at hstep
      split at hstep
      · cases hstep
      next hge =>
        cases hstep
        exact .inr (.inr ⟨_, rfl, rfl, trivial, rfl, hge, id⟩)
    | fail => exact hguard.elim
    | _ => cases hstep
  | responded response =>
    rw [hphase] at hstep
    cases call <;> cases hstep

theorem mintStep_inv {step : ι × MintCall} (h : TokenInv json s) (hstep : mintStep json adminToken s step s')
    (hguard : NothingOverwritten json s step) : TokenInv json s' := by
  obtain ⟨i, call⟩ := step
  rcases mintStep_cases hstep hguard with ⟨name, tokenValue, store, hphase, rfl, rfl⟩ |
    ⟨name, tokenValue, store, written, n, file, bytes, hphase, hfile, hbytes, hne, rfl⟩ |
    ⟨p, hfile, hphase, hown, hminted, hbefore, hafter⟩
  · unfold NothingOverwritten at hguard
    rw [hphase] at hguard
    dsimp only at hguard
    split at hguard
    next stored hload => exact h.truncate hphase hload hguard
    next => exact hguard.elim
  · exact h.write hphase hfile hbytes hne
  · exact h.move hfile hphase hown hminted hbefore hafter

variable {file : Option Bytes} {writeTokens : List String} {requests : ι → MintRequest} {calls : List (ι × MintCall)}

/-- While nothing in the file is overwritten, no token is lost. -/
theorem tokensKept (hrun : Run (guarded (mintStep json adminToken) (NothingOverwritten json))
    (.start file writeTokens requests) calls s) (hdone : AllResponded s) : TokensKept json s := by
  have hstart : TokenInv json (TokenServer.start file writeTokens requests) := ⟨fun _ => trivial, .inl fun _ => rfl⟩
  have hinv : TokenInv json s := hrun.invariant (fun _ _ _ h hstep => mintStep_inv h hstep.2 hstep.1) hstart
  intro i tokenValue name hphase
  have hminted : (s.phase i).minted = some tokenValue := by rw [hphase]; rfl
  rcases hinv.kept with hnone | ⟨kept, hholding, hkept⟩
  · rw [hnone i] at hminted; cases hminted
  · cases hholding with
    | settled hload _ =>
      obtain ⟨t, ht, htoken⟩ := List.mem_map.mp (hkept i tokenValue hminted)
      exact ⟨kept, hload, t, ht, htoken⟩
    | writing k _ _ _ hk _ _ _ =>
      obtain ⟨response, hresponse⟩ := hdone k
      rw [hk] at hresponse; cases hresponse

/-! ## Two requests -/

def twoRequests : Bool → MintRequest
  | false => ⟨some "Bearer admin", some (some "laptop")⟩
  | true => ⟨some "Bearer admin", some (some "ci")⟩

def twoStart : TokenServer Bool := .start none [] twoRequests

/-- The calls of one request from the load of an absent file to the response. -/
def mintCalls (i : Bool) (tokenValue : String) : List (Bool × MintCall) :=
  [(i, .authorize), (i, .openRead), (i, .create tokenValue 0)]

def saveCalls (i : Bool) : List (Bool × MintCall) := [(i, .openTruncate), (i, .write 1000), (i, .respond)]

/-- The second request loads the file that the first one has written. -/
def oneByOne : List (Bool × MintCall) :=
  mintCalls false "ekap_1" ++ saveCalls false ++
    [(true, .authorize), (true, .openRead), (true, .read 1000), (true, .readEnd), (true, .create "ekap_2" 0)] ++ saveCalls true

theorem tokensKept_oneByOne : ∃ s : TokenServer Bool, AllResponded s ∧ s.phase false = .responded (.ok "ekap_1" "laptop") ∧
    TokensKept plainJson s := by
  have hfinal : (oneByOne.foldlM (fun s a => if NothingOverwritten plainJson s a then mintNext plainJson (some "admin") s a
      else none) twoStart).any (fun s => s.phase false = .responded (.ok "ekap_1" "laptop") ∧
        s.phase true = .responded (.ok "ekap_2" "ci")) = true := by decide +kernel
  obtain ⟨s, hs, hphases⟩ := (Option.any_eq_true ..).mp hfinal
  obtain ⟨hfirst, hsecond⟩ := of_decide_eq_true hphases
  have hdone : AllResponded s := by
    intro i
    cases i
    · exact ⟨_, hfirst⟩
    · exact ⟨_, hsecond⟩
  exact ⟨s, hdone, hfirst, tokensKept (run_of_foldlM_guarded hs) hdone⟩

/-- Both requests load before either saves. -/
theorem token_lost : ∃ (s : TokenServer Bool) (calls : List (Bool × MintCall)),
    Run (mintStep plainJson (some "admin")) (.start none [] twoRequests) calls s ∧ AllResponded s ∧
      ¬ TokensKept plainJson s := by
  have hfinal : ((mintCalls false "ekap_1" ++ mintCalls true "ekap_2" ++ saveCalls false ++ saveCalls true).foldlM
      (mintNext plainJson (some "admin")) twoStart).any (fun s => s.phase false = .responded (.ok "ekap_1" "laptop") ∧
        s.phase true = .responded (.ok "ekap_2" "ci") ∧
        loadFile plainJson s.file = some ⟨[⟨"ci", "ekap_2", ⟨true, true⟩, 0⟩]⟩) = true := by decide +kernel
  obtain ⟨s, hs, hphases⟩ := (Option.any_eq_true ..).mp hfinal
  obtain ⟨hfirst, hsecond, hload⟩ := of_decide_eq_true hphases
  refine ⟨s, _, run_of_foldlM hs, ?_, ?_⟩
  · intro i
    cases i
    · exact ⟨_, hfirst⟩
    · exact ⟨_, hsecond⟩
  · intro h
    obtain ⟨store, hstore, t, ht, htoken⟩ := h false _ _ hfirst
    rw [hload, Option.some.injEq] at hstore
    subst hstore
    obtain rfl := List.mem_singleton.mp ht
    exact absurd htoken (by decide)

end Ekapkgs
