import CryptoCex.Db.Tables
import CryptoCex.Lib.Machine

/-!
# Rotation of refresh tokens

`AuthService::refresh` finds the token, finds its user, revokes the token and inserts a new one
of the same family; for a token that is revoked already it revokes the whole family. Every one
of these is a statement of its own, and calls run concurrently.

`revoke_refresh_token` does not tell whether the token was still unrevoked. Two calls that found
one token unrevoked are both given a new pair (`double_redemption`), and a call that has revoked
its token but has not inserted the new one yet inserts it into a family that another call has
revoked meanwhile. These two are all that can go wrong (`rotation_safe`).
-/

namespace CryptoCex.Auth

open CryptoCex.Core (Uuid)
open Db.Tables (Delivery)

/-! ## Rows and statements -/

inductive AccountStatus where
  | active
  | frozen
  | closed
deriving DecidableEq, Repr

/-- A row of `refresh_tokens`. -/
structure RefreshToken where
  id : Uuid
  userId : Uuid
  sessionId : Uuid
  tokenHash : String
  familyId : Uuid
  expiresAt : ℤ
  revokedAt : Option ℤ
deriving DecidableEq, Repr

structure CreateRefreshToken where
  id : Uuid
  userId : Uuid
  sessionId : Uuid
  tokenHash : String
  familyId : Uuid
  expiresAt : ℤ
deriving DecidableEq, Repr

def findRefreshToken (tokenHash : String) (rows : List RefreshToken) : Option RefreshToken :=
  rows.find? fun row => row.tokenHash = tokenHash

/-- `id` is the primary key, and `token_hash` is unique. -/
def insertRefreshToken (input : CreateRefreshToken) (rows : List RefreshToken) :
    Option (List RefreshToken) :=
  if ∃ row ∈ rows, row.id = input.id ∨ row.tokenHash = input.tokenHash then none
  else some (rows ++ [⟨input.id, input.userId, input.sessionId, input.tokenHash, input.familyId,
    input.expiresAt, none⟩])

/-- `SET revoked_at = COALESCE(revoked_at, now)` where `p` holds. -/
def revokeWhere (p : RefreshToken → Bool) (now : ℤ) (rows : List RefreshToken) :
    List RefreshToken :=
  rows.map fun row => if p row then { row with revokedAt := row.revokedAt.or (some now) } else row

def revokeRefreshToken (tokenId : Uuid) : ℤ → List RefreshToken → List RefreshToken :=
  revokeWhere fun row => row.id = tokenId

def revokeRefreshFamily (familyId : Uuid) : ℤ → List RefreshToken → List RefreshToken :=
  revokeWhere fun row => row.familyId = familyId

/-- Whether a write is acknowledged, and the rows afterwards. -/
def executeWrite (delivery : Delivery) (statement : List RefreshToken → Option (List RefreshToken))
    (rows : List RefreshToken) : Bool × List RefreshToken :=
  match delivery with
  | .refused => (false, rows)
  | .lost => (false, (statement rows).getD rows)
  | .answered =>
    match statement rows with
    | some rows => (true, rows)
    | none => (false, rows)

/-! ## Calls -/

/-- The errors of `refresh`. -/
inductive AuthError where
  | tokenExpired
  | tokenInvalid
  | internal
deriving DecidableEq, Repr

/-- How a call ends: with a new pair, with an error after it found a revoked token, or with
another error. -/
inductive Ending where
  | pair (stored : RefreshToken) (minted : CreateRefreshToken)
  | reuse (stored : RefreshToken) (error : AuthError)
  | error (error : AuthError)
deriving DecidableEq, Repr

/-- What a call does next. -/
inductive Phase where
  | finding (tokenHash : String)
  | revokingFamily (stored : RefreshToken) (now : ℤ)
  | revokingExpired (stored : RefreshToken) (now : ℤ)
  | findingUser (stored : RefreshToken) (now : ℤ)
  | revoking (stored : RefreshToken) (now : ℤ)
  | inserting (stored : RefreshToken)
  | returned (ending : Ending)
deriving DecidableEq, Repr

structure State where
  tokens : List RefreshToken
  /-- The status of each user. -/
  users : Uuid → Option AccountStatus
  /-- The calls of `refresh` so far. -/
  calls : List Phase

def State.setCall (s : State) (c : ℕ) (phase : Phase) : State :=
  { s with calls := s.calls.set c phase }

inductive Action where
  /-- `refresh` is called with a token of this hash. -/
  | call (tokenHash : String)
  | findRefreshToken (c : ℕ) (delivery : Delivery) (now : ℤ)
  | revokeRefreshFamily (c : ℕ) (delivery : Delivery)
  | revokeExpired (c : ℕ) (delivery : Delivery)
  | findUserById (c : ℕ) (delivery : Delivery)
  | revokeRefreshToken (c : ℕ) (delivery : Delivery)
  /-- The new pair is minted and its refresh token stored. -/
  | insertRefreshToken (c : ℕ) (tokenId : Uuid) (tokenHash : String) (expiresAt : ℤ)
      (delivery : Delivery)
  /-- A login or a signup stores the first token of a family. -/
  | signIn (input : CreateRefreshToken) (delivery : Delivery)
  | userChanges (userId : Uuid) (status : Option AccountStatus)
deriving DecidableEq, Repr

/-- After the token was looked up. -/
def afterFind (delivery : Delivery) (stored : Option RefreshToken) (now : ℤ) : Phase :=
  match delivery with
  | .answered =>
    match stored with
    | none => .returned (.error .tokenInvalid)
    | some stored =>
      if stored.revokedAt.isSome then .revokingFamily stored now
      else if stored.expiresAt ≤ now then .revokingExpired stored now
      else .findingUser stored now
  | _ => .returned (.error .internal)

/-- After the user was looked up. -/
def afterFindUser (delivery : Delivery) (status : Option AccountStatus) (stored : RefreshToken)
    (now : ℤ) : Phase :=
  match delivery with
  | .answered => if status = some .active then .revoking stored now
      else .returned (.error .tokenInvalid)
  | _ => .returned (.error .internal)

def step (s : State) : Action → Option State
  | .call tokenHash => some { s with calls := s.calls ++ [.finding tokenHash] }
  | .findRefreshToken c delivery now =>
    match s.calls[c]? with
    | some (.finding tokenHash) =>
      some (s.setCall c (afterFind delivery (findRefreshToken tokenHash s.tokens) now))
    | _ => none
  | .revokeRefreshFamily c delivery =>
    match s.calls[c]? with
    | some (.revokingFamily stored now) =>
      let (ok, tokens) := executeWrite delivery
        (fun rows => some (revokeRefreshFamily stored.familyId now rows)) s.tokens
      some ({ s with tokens }.setCall c
        (.returned (.reuse stored (if ok then .tokenInvalid else .internal))))
    | _ => none
  | .revokeExpired c delivery =>
    match s.calls[c]? with
    | some (.revokingExpired stored now) =>
      let (ok, tokens) := executeWrite delivery
        (fun rows => some (revokeRefreshToken stored.id now rows)) s.tokens
      some ({ s with tokens }.setCall c
        (.returned (.error (if ok then .tokenExpired else .internal))))
    | _ => none
  | .findUserById c delivery =>
    match s.calls[c]? with
    | some (.findingUser stored now) =>
      some (s.setCall c (afterFindUser delivery (s.users stored.userId) stored now))
    | _ => none
  | .revokeRefreshToken c delivery =>
    match s.calls[c]? with
    | some (.revoking stored now) =>
      let (ok, tokens) := executeWrite delivery
        (fun rows => some (revokeRefreshToken stored.id now rows)) s.tokens
      some ({ s with tokens }.setCall c
        (if ok then .inserting stored else .returned (.error .internal)))
    | _ => none
  | .insertRefreshToken c tokenId tokenHash expiresAt delivery =>
    match s.calls[c]? with
    | some (.inserting stored) =>
      let input : CreateRefreshToken :=
        ⟨tokenId, stored.userId, stored.sessionId, tokenHash, stored.familyId, expiresAt⟩
      let (ok, tokens) := executeWrite delivery (insertRefreshToken input) s.tokens
      some ({ s with tokens }.setCall c
        (.returned (if ok then .pair stored input else .error .internal)))
    | _ => none
  | .signIn input delivery =>
    some { s with tokens := (executeWrite delivery (insertRefreshToken input) s.tokens).2 }
  | .userChanges userId status =>
    some { s with users := Function.update s.users userId status }

/-! ## What the statements do -/

variable {rows rows' : List RefreshToken} {p : RefreshToken → Bool} {now : ℤ}

/-- A row after a revocation was there before, and is revoked at least where it was. -/
theorem mem_revokeWhere {row : RefreshToken} (h : row ∈ revokeWhere p now rows) :
    ∃ old ∈ rows, row.id = old.id ∧ row.familyId = old.familyId ∧
      (old.revokedAt ≠ none → row.revokedAt ≠ none) ∧ (p old = true → row.revokedAt ≠ none) := by
  rcases List.mem_map.mp h with ⟨old, hold, rfl⟩
  refine ⟨old, hold, ?_⟩
  by_cases hp : p old = true
  · rw [if_pos hp]
    refine ⟨rfl, rfl, ?_, ?_⟩ <;> intro _ <;> cases old.revokedAt <;> simp
  · rw [if_neg hp]
    exact ⟨rfl, rfl, id, fun h => absurd h hp⟩

/-- No row is lost. -/
theorem exists_mem_revokeWhere {old : RefreshToken} (p : RefreshToken → Bool) (now : ℤ)
    (h : old ∈ rows) :
    ∃ row ∈ revokeWhere p now rows, row.id = old.id ∧ row.familyId = old.familyId := by
  refine ⟨_, List.mem_map_of_mem h, ?_⟩
  split_ifs
  · exact ⟨rfl, rfl⟩
  · exact ⟨rfl, rfl⟩

/-- A row that is inserted has a new id. -/
theorem insertRefreshToken_eq_some {input : CreateRefreshToken}
    (h : insertRefreshToken input rows = some rows') :
    (∀ row ∈ rows, row.id ≠ input.id) ∧
      rows' = rows ++ [⟨input.id, input.userId, input.sessionId, input.tokenHash, input.familyId,
        input.expiresAt, none⟩] := by
  unfold insertRefreshToken at h
  split_ifs at h with htaken
  refine ⟨fun row hrow heq => htaken ⟨row, hrow, .inl heq⟩, ?_⟩
  exact (Option.some.inj h).symm

/-- Whatever becomes of a write, the rows are those after it or those before. -/
theorem executeWrite_rows (delivery : Delivery)
    (statement : List RefreshToken → Option (List RefreshToken)) (rows : List RefreshToken) :
    statement rows = some (executeWrite delivery statement rows).2 ∨
      (executeWrite delivery statement rows).2 = rows := by
  unfold executeWrite
  cases delivery with
  | refused => exact .inr rfl
  | lost =>
    cases hstatement : statement rows with
    | none => exact .inr rfl
    | some rows' => exact .inl rfl
  | answered =>
    cases hstatement : statement rows with
    | none => exact .inr rfl
    | some rows' => exact .inl rfl

/-- An acknowledged write was carried out. -/
theorem executeWrite_ok {delivery : Delivery}
    {statement : List RefreshToken → Option (List RefreshToken)}
    (h : (executeWrite delivery statement rows).1 = true) :
    delivery = .answered ∧ statement rows = some (executeWrite delivery statement rows).2 := by
  unfold executeWrite at h ⊢
  cases delivery with
  | refused => cases h
  | lost => cases h
  | answered =>
    cases hstatement : statement rows with
    | none =>
      rw [hstatement] at h
      cases h
    | some rows' => exact ⟨rfl, rfl⟩

/-! ## Invariant -/

namespace Phase

/-- The token a call works on. -/
def stored? : Phase → Option RefreshToken
  | revokingFamily stored _ | revokingExpired stored _ | findingUser stored _
  | revoking stored _ | inserting stored | returned (.pair stored _) => some stored
  | _ => none

/-- The token a call has revoked in order to exchange it, or has exchanged. -/
def redeems : Phase → Option Uuid
  | inserting stored | returned (.pair stored _) => some stored.id
  | _ => none

/-- The family a call inserts a token into. -/
def insertsInto : Phase → Option Uuid
  | inserting stored => some stored.familyId
  | _ => none

/-- The family in which a call has found a revoked token. -/
def reused : Phase → Option Uuid
  | returned (.reuse stored _) => some stored.familyId
  | _ => none

end Phase

/-- A family whose tokens are all revoked and that no call inserts a token into. -/
def Dead (s : State) (familyId : Uuid) : Prop :=
  (∃ row ∈ s.tokens, row.familyId = familyId) ∧
    (∀ row ∈ s.tokens, row.familyId = familyId → row.revokedAt ≠ none) ∧
    ∀ phase ∈ s.calls, phase.insertsInto ≠ some familyId

structure Inv (s : State) : Prop where
  known : ∀ phase ∈ s.calls, ∀ stored, phase.stored? = some stored →
    ∃ row ∈ s.tokens, row.id = stored.id ∧ row.familyId = stored.familyId
  spent : ∀ phase ∈ s.calls, ∀ id, phase.redeems = some id →
    ∀ row ∈ s.tokens, row.id = id → row.revokedAt ≠ none
  once : ∀ (i j : ℕ) p q, s.calls[i]? = some p → s.calls[j]? = some q →
    ∀ id, p.redeems = some id → q.redeems = some id → i = j
  dead : ∀ phase ∈ s.calls, ∀ familyId, phase.reused = some familyId → Dead s familyId

variable {s s' : State}

/-- A call goes on. -/
theorem Inv.setCall (h : Inv s) {c : ℕ} {old phase : Phase} (hc : s.calls[c]? = some old)
    (hstored : ∀ stored, phase.stored? = some stored →
      ∃ row ∈ s.tokens, row.id = stored.id ∧ row.familyId = stored.familyId)
    (hredeems : ∀ id, phase.redeems = some id → old.redeems = some id ∨
      (∀ row ∈ s.tokens, row.id = id → row.revokedAt ≠ none) ∧
        ∀ q ∈ s.calls, q.redeems ≠ some id)
    (hinserts : ∀ familyId, phase.insertsInto = some familyId →
      phase.reused = none ∧ ∀ q ∈ s.calls, q.reused ≠ some familyId)
    (hreused : ∀ familyId, phase.reused = some familyId → Dead s familyId) :
    Inv (s.setCall c phase) := by
  have hlt : c < s.calls.length := (List.getElem?_eq_some_iff.mp hc).1
  have hold : old ∈ s.calls := List.mem_of_getElem? hc
  have hmem : ∀ q ∈ s.calls.set c phase, q = phase ∨ q ∈ s.calls :=
    fun q hq => (List.mem_or_eq_of_mem_set hq).symm
  -- who redeems a token now did so before, unless it is this call
  have hother : ∀ {i q id}, (s.calls.set c phase)[i]? = some q → q.redeems = some id → i ≠ c →
      s.calls[i]? = some q := by
    intro i q id hi _ hne
    rwa [List.getElem?_set_ne (Ne.symm hne)] at hi
  have hthis : ∀ {i q}, (s.calls.set c phase)[i]? = some q → i = c → q = phase := by
    rintro i q hi rfl
    rw [List.getElem?_set_self hlt] at hi
    exact (Option.some.inj hi).symm
  have hunique : ∀ {i q id}, (s.calls.set c phase)[i]? = some q → q.redeems = some id →
      phase.redeems = some id → i = c := by
    intro i q id hi hq hphase
    by_contra hne
    have hi' := hother hi hq hne
    rcases hredeems id hphase with hsame | ⟨-, hnone⟩
    · exact hne (h.once i c q old hi' hc id hq hsame)
    · exact hnone q (List.mem_of_getElem? hi') hq
  constructor
  · intro q hq stored hqs
    rcases hmem q hq with rfl | hq
    · exact hstored stored hqs
    · exact h.known q hq stored hqs
  · intro q hq id hqr
    rcases hmem q hq with rfl | hq
    · rcases hredeems id hqr with hsame | ⟨hspent, -⟩
      · exact h.spent old hold id hsame
      · exact hspent
    · exact h.spent q hq id hqr
  · intro i j q r hi hj id hq hr
    by_cases hic : i = c
    · have hphase : phase.redeems = some id := hthis hi hic ▸ hq
      rw [hic, hunique hj hr hphase]
    · by_cases hjc : j = c
      · have hphase : phase.redeems = some id := hthis hj hjc ▸ hr
        rw [hjc, hunique hi hq hphase]
      · exact h.once i j q r (hother hi hq hic) (hother hj hr hjc) id hq hr
  · intro q hq familyId hqr
    have hdead : Dead s familyId := by
      rcases hmem q hq with rfl | hq
      · exact hreused familyId hqr
      · exact h.dead q hq familyId hqr
    refine ⟨hdead.1, hdead.2.1, ?_⟩
    intro r hr hrf
    rcases hmem r hr with rfl | hr
    · rcases hinserts familyId hrf with ⟨hnone, hall⟩
      rcases hmem q hq with rfl | hq
      · rw [hnone] at hqr
        cases hqr
      · exact hall q hq hqr
    · exact hdead.2.2 r hr hrf

/-- A call that begins changes nothing. -/
theorem Inv.call (h : Inv s) (tokenHash : String) :
    Inv { s with calls := s.calls ++ [.finding tokenHash] } := by
  have hmem : ∀ q ∈ s.calls ++ [.finding tokenHash], q ∈ s.calls ∨ q = .finding tokenHash := by
    intro q hq
    rcases List.mem_append.mp hq with hq | hq
    · exact .inl hq
    · exact .inr (List.mem_singleton.mp hq)
  constructor
  · intro q hq stored hstored
    rcases hmem q hq with hq | rfl
    · exact h.known q hq stored hstored
    · cases hstored
  · intro q hq id hredeems
    rcases hmem q hq with hq | rfl
    · exact h.spent q hq id hredeems
    · cases hredeems
  · -- the new call redeems nothing yet
    have hold : ∀ {i : ℕ} {q : Phase} {id : Uuid},
        (s.calls ++ [.finding tokenHash])[i]? = some q → q.redeems = some id →
          s.calls[i]? = some q := by
      intro i q id hi hq
      rcases Nat.lt_or_ge i s.calls.length with hlt | hge
      · rwa [List.getElem?_append_left hlt] at hi
      · rw [List.getElem?_append_right hge] at hi
        have hlast := List.mem_singleton.mp (List.mem_of_getElem? hi)
        rw [hlast] at hq
        cases hq
    intro i j q r hi hj id hq hr
    exact h.once i j q r (hold hi hq) (hold hj hr) id hq hr
  · intro q hq familyId hreused
    rcases hmem q hq with hq | rfl
    · rcases h.dead q hq familyId hreused with ⟨hrow, hrevoked, hinserts⟩
      refine ⟨hrow, hrevoked, fun r hr => ?_⟩
      rcases hmem r hr with hr | rfl
      · exact hinserts r hr
      · simp [Phase.insertsInto]
    · cases hreused

/-- The rows after some of them were revoked. -/
def Revoked (rows rows' : List RefreshToken) : Prop :=
  (∀ row ∈ rows', ∃ old ∈ rows, row.id = old.id ∧ row.familyId = old.familyId ∧
    (old.revokedAt ≠ none → row.revokedAt ≠ none)) ∧
  ∀ old ∈ rows, ∃ row ∈ rows', row.id = old.id ∧ row.familyId = old.familyId

theorem revoked_revokeWhere (p : RefreshToken → Bool) (now : ℤ) (rows : List RefreshToken) :
    Revoked rows (revokeWhere p now rows) := by
  constructor
  · intro row hrow
    rcases mem_revokeWhere hrow with ⟨old, hold, hid, hfamily, hkeep, -⟩
    exact ⟨old, hold, hid, hfamily, hkeep⟩
  · exact fun old hold => exists_mem_revokeWhere p now hold

/-- Whatever becomes of the answer, rows are revoked or stay. -/
theorem revoked_executeWrite {delivery : Delivery} :
    Revoked rows
      (executeWrite delivery (fun rows => some (revokeWhere p now rows)) rows).2 := by
  rcases executeWrite_rows delivery (fun rows => some (revokeWhere p now rows)) rows with
    hdone | hsame
  · rw [← Option.some.inj hdone]
    exact revoked_revokeWhere p now rows
  · rw [hsame]
    exact ⟨fun row hrow => ⟨row, hrow, rfl, rfl, id⟩, fun old hold => ⟨old, hold, rfl, rfl⟩⟩

/-- A dead family stays dead when more rows are revoked. -/
theorem Dead.revoked {familyId : Uuid} (h : Dead s familyId) (hrows : Revoked s.tokens rows) :
    Dead { s with tokens := rows } familyId := by
  rcases h with ⟨⟨old, hold, hfamily⟩, hrevoked, hinserts⟩
  refine ⟨?_, ?_, hinserts⟩
  · rcases hrows.2 old hold with ⟨row, hrow, -, hrowFamily⟩
    exact ⟨row, hrow, hrowFamily.trans hfamily⟩
  · intro row hrow hrowFamily
    rcases hrows.1 row hrow with ⟨old, hold, -, hsame, hkeep⟩
    exact hkeep (hrevoked old hold (hsame.symm.trans hrowFamily))

/-- So revoking keeps the invariant. -/
theorem Inv.revoked (h : Inv s) (hrows : Revoked s.tokens rows) :
    Inv { s with tokens := rows } := by
  constructor
  · intro q hq stored hstored
    rcases h.known q hq stored hstored with ⟨old, hold, hid, hfamily⟩
    rcases hrows.2 old hold with ⟨row, hrow, hrowId, hrowFamily⟩
    exact ⟨row, hrow, hrowId.trans hid, hrowFamily.trans hfamily⟩
  · intro q hq id hredeems row hrow hid
    rcases hrows.1 row hrow with ⟨old, hold, hsame, -, hkeep⟩
    exact hkeep (h.spent q hq id hredeems old hold (hsame.symm.trans hid))
  · exact h.once
  · exact fun q hq familyId hreused => (h.dead q hq familyId hreused).revoked hrows

/-- A token comes in, of a family that no call has found a revoked token in. -/
theorem Inv.inserted (h : Inv s) (delivery : Delivery) (input : CreateRefreshToken)
    (hfamily : ∀ q ∈ s.calls, q.reused ≠ some input.familyId) :
    Inv { s with tokens := (executeWrite delivery (insertRefreshToken input) s.tokens).2 } := by
  rcases executeWrite_rows delivery (insertRefreshToken input) s.tokens with hdone | hsame
  · rcases insertRefreshToken_eq_some hdone with ⟨hnew, hrows⟩
    rw [hrows]
    have hmem : ∀ row ∈ s.tokens ++ [(⟨input.id, input.userId, input.sessionId, input.tokenHash,
        input.familyId, input.expiresAt, none⟩ : RefreshToken)],
        row ∈ s.tokens ∨ row.id = input.id ∧ row.familyId = input.familyId := by
      intro row hrow
      rcases List.mem_append.mp hrow with hrow | hrow
      · exact .inl hrow
      · rw [List.mem_singleton.mp hrow]
        exact .inr ⟨rfl, rfl⟩
    constructor
    · intro q hq stored hstored
      rcases h.known q hq stored hstored with ⟨row, hrow, hrest⟩
      exact ⟨row, List.mem_append.mpr (.inl hrow), hrest⟩
    · intro q hq id hredeems row hrow hid
      rcases hmem row hrow with hrow | ⟨hrowId, -⟩
      · exact h.spent q hq id hredeems row hrow hid
      · -- the id of an exchanged token is taken
        have hstored : ∃ stored, q.stored? = some stored ∧ stored.id = id := by
          cases q with
          | inserting stored => exact ⟨stored, rfl, Option.some.inj hredeems⟩
          | returned ending =>
            cases ending with
            | pair stored minted => exact ⟨stored, rfl, Option.some.inj hredeems⟩
            | reuse stored e => cases hredeems
            | error e => cases hredeems
          | _ => cases hredeems
        rcases hstored with ⟨stored, hstored, hstoredId⟩
        rcases h.known q hq stored hstored with ⟨old, hold, holdId, -⟩
        exact absurd (holdId.trans (hstoredId.trans (hid.symm.trans hrowId))) (hnew old hold)
    · exact h.once
    · intro q hq familyId hreused
      rcases h.dead q hq familyId hreused with ⟨⟨old, hold, hold'⟩, hrevoked, hinserts⟩
      refine ⟨⟨old, List.mem_append.mpr (.inl hold), hold'⟩, ?_, hinserts⟩
      intro row hrow hrowFamily
      rcases hmem row hrow with hrow | ⟨-, hnewFamily⟩
      · exact hrevoked row hrow hrowFamily
      · rw [← hrowFamily, hnewFamily] at hreused
        exact absurd hreused (hfamily q hq)
  · rw [hsame]
    exact h

/-! ## Orderly steps -/

/-- The token a call is about to revoke in order to exchange it. -/
def Phase.revokes : Phase → Option RefreshToken
  | revoking stored _ => some stored
  | _ => none

/-- The revoked token on account of which a call is about to revoke a family. -/
def Phase.revokesFamily : Phase → Option RefreshToken
  | revokingFamily stored _ => some stored
  | _ => none

/-- A token is revoked for its exchange only while it is unrevoked; a family is revoked, and no
call is inserting into it then; a login starts a family of its own. -/
def Orderly (s : State) : Action → Prop
  | .revokeRefreshToken c delivery => delivery = .answered →
      ∀ phase ∈ s.calls[c]?, ∀ stored ∈ phase.revokes,
        ∀ row ∈ s.tokens, row.id = stored.id → row.revokedAt = none
  | .revokeRefreshFamily c delivery => delivery ≠ .refused ∧
      ∀ phase ∈ s.calls[c]?, ∀ stored ∈ phase.revokesFamily,
        ∀ other ∈ s.calls, other.insertsInto ≠ some stored.familyId
  | .signIn input _ => ∀ row ∈ s.tokens, row.familyId ≠ input.familyId
  | _ => True

instance (s : State) (a : Action) : Decidable (Orderly s a) :=
  match a with
  | .revokeRefreshToken _ _ => inferInstanceAs (Decidable (_ → ∀ phase ∈ _, ∀ stored ∈ _, _))
  | .revokeRefreshFamily _ _ => inferInstanceAs (Decidable (_ ∧ ∀ phase ∈ _, ∀ stored ∈ _, _))
  | .signIn _ _ => inferInstanceAs (Decidable (∀ row ∈ s.tokens, _))
  | .call _ | .findRefreshToken _ _ _ | .revokeExpired _ _ | .findUserById _ _
  | .insertRefreshToken _ _ _ _ _ | .userChanges _ _ => isTrue trivial

theorem findRefreshToken_mem {tokenHash : String} {row : RefreshToken}
    (h : findRefreshToken tokenHash rows = some row) : row ∈ rows :=
  List.mem_of_find?_eq_some h

/-- What a call that has only looked at a token can be about to do. -/
theorem Inv.setCall_looked (h : Inv s) {c : ℕ} {old phase : Phase} (hc : s.calls[c]? = some old)
    (hstored : ∀ stored, phase.stored? = some stored →
      ∃ row ∈ s.tokens, row.id = stored.id ∧ row.familyId = stored.familyId)
    (hredeems : phase.redeems = none) (hinserts : phase.insertsInto = none)
    (hreused : phase.reused = none) : Inv (s.setCall c phase) := by
  refine h.setCall hc hstored ?_ ?_ ?_
  · simp [hredeems]
  · simp [hinserts]
  · simp [hreused]

theorem Inv.setCall_failed (h : Inv s) {c : ℕ} {old : Phase} (hc : s.calls[c]? = some old)
    (e : AuthError) : Inv (s.setCall c (.returned (.error e))) :=
  h.setCall_looked hc (by simp [Phase.stored?]) rfl rfl rfl

/-- The row that was found is known from now on, and a revoked one is a reuse. -/
theorem Inv.findRefreshToken (h : Inv s) {c : ℕ} {old : Phase} (hc : s.calls[c]? = some old)
    (delivery : Delivery) (tokenHash : String) (now : ℤ) :
    Inv (s.setCall c (afterFind delivery (findRefreshToken tokenHash s.tokens) now)) := by
  unfold afterFind
  cases delivery with
  | refused => exact h.setCall_failed hc _
  | lost => exact h.setCall_failed hc _
  | answered =>
    cases hfind : Auth.findRefreshToken tokenHash s.tokens with
    | none => exact h.setCall_failed hc _
    | some row =>
      have hknown : ∃ old ∈ s.tokens, old.id = row.id ∧ old.familyId = row.familyId :=
        ⟨row, findRefreshToken_mem hfind, rfl, rfl⟩
      dsimp only
      split_ifs with hrevoked hexpired <;>
        exact h.setCall_looked hc (by simpa [Phase.stored?] using hknown) rfl rfl rfl

/-- A family is revoked: none of its tokens is left, and nobody is about to insert one. -/
theorem Inv.revokeRefreshFamily (h : Inv s) {c : ℕ} {stored : RefreshToken} {now : ℤ}
    (hc : s.calls[c]? = some (.revokingFamily stored now)) {delivery : Delivery}
    (hok : Orderly s (.revokeRefreshFamily c delivery)) (e : AuthError) :
    Inv ({ s with tokens := (executeWrite delivery
      (fun rows => some (revokeRefreshFamily stored.familyId now rows)) s.tokens).2 }.setCall c
        (.returned (.reuse stored e))) := by
  have hkept : Inv { s with tokens := (executeWrite delivery
      (fun rows => some (Auth.revokeRefreshFamily stored.familyId now rows)) s.tokens).2 } :=
    h.revoked revoked_executeWrite
  refine hkept.setCall hc (by simp [Phase.stored?]) (by simp [Phase.redeems])
    (by simp [Phase.insertsInto]) ?_
  intro familyId hfamily
  cases Option.some.inj hfamily
  rcases h.known _ (List.mem_of_getElem? hc) stored rfl with ⟨old, hold, -, holdFamily⟩
  have hrows : (executeWrite delivery
      (fun rows => some (Auth.revokeRefreshFamily stored.familyId now rows)) s.tokens).2 =
      Auth.revokeRefreshFamily stored.familyId now s.tokens := by
    cases delivery with
    | refused => exact absurd rfl hok.1
    | lost => rfl
    | answered => rfl
  -- the family is known, and all of it is revoked, as the write did not fail
  refine ⟨?_, ?_, hok.2 _ hc stored rfl⟩
  · rw [hrows]
    rcases exists_mem_revokeWhere (fun row => row.familyId = stored.familyId) now hold with
      ⟨row, hrow, -, hrowFamily⟩
    exact ⟨row, hrow, hrowFamily.trans holdFamily⟩
  · intro row hrow hrowFamily
    rw [hrows] at hrow
    rcases mem_revokeWhere hrow with ⟨old, -, -, hsame, -, hrevoked⟩
    exact hrevoked (decide_eq_true (hsame.symm.trans hrowFamily))

/-- A token is revoked for its exchange while it is unrevoked: nobody else has exchanged it, and
its family is not dead. -/
theorem Inv.revokeRefreshToken (h : Inv s) {c : ℕ} {stored : RefreshToken} {now : ℤ}
    (hc : s.calls[c]? = some (.revoking stored now))
    (hok : Orderly s (.revokeRefreshToken c .answered)) :
    Inv ({ s with tokens := Auth.revokeRefreshToken stored.id now s.tokens }.setCall c
      (.inserting stored)) := by
  have hunrevoked := hok rfl _ hc stored rfl
  rcases h.known _ (List.mem_of_getElem? hc) stored rfl with ⟨old, hold, holdId, holdFamily⟩
  have hkept : Inv { s with tokens := Auth.revokeRefreshToken stored.id now s.tokens } :=
    h.revoked (revoked_revokeWhere _ _ _)
  refine hkept.setCall hc ?_ ?_ ?_ (by simp [Phase.reused])
  · intro stored' hstored'
    cases Option.some.inj hstored'
    exact hkept.known _ (List.mem_of_getElem? hc) stored rfl
  · -- no other call has redeemed the token: its row was not revoked until now
    intro id hid
    cases Option.some.inj hid
    refine .inr ⟨?_, ?_⟩
    · intro row hrow hrowId
      rcases mem_revokeWhere hrow with ⟨old, -, hsame, -, -, hrevoked⟩
      exact hrevoked (decide_eq_true (hsame.symm.trans hrowId))
    · exact fun q hq hredeems =>
        h.spent q hq stored.id hredeems old hold holdId (hunrevoked old hold holdId)
  · -- and the family is not dead, or the row would have been revoked
    intro familyId hfamily
    cases Option.some.inj hfamily
    refine ⟨rfl, fun q hq hreused => ?_⟩
    exact (h.dead q hq stored.familyId hreused).2.1 old hold holdFamily
      (hunrevoked old hold holdId)

/-- Every orderly step keeps the invariant. -/
theorem Inv.step {a : Action} (h : Inv s) (hok : Orderly s a) (hstep : step s a = some s') :
    Inv s' := by
  cases a with
  | call tokenHash =>
    cases hstep
    exact h.call tokenHash
  | findRefreshToken c delivery now =>
    simp only [Auth.step] at hstep
    split at hstep
    next tokenHash hc =>
      cases hstep
      exact h.findRefreshToken hc delivery tokenHash now
    · cases hstep
  | revokeRefreshFamily c delivery =>
    simp only [Auth.step] at hstep
    split at hstep
    next stored now hc =>
      cases hstep
      exact h.revokeRefreshFamily hc hok _
    · cases hstep
  | revokeExpired c delivery =>
    simp only [Auth.step] at hstep
    split at hstep
    next stored now hc =>
      cases hstep
      exact (h.revoked revoked_executeWrite).setCall_failed hc _
    · cases hstep
  -- the row stays what the call knows
  | findUserById c delivery =>
    simp only [Auth.step] at hstep
    split at hstep
    next stored now hc =>
      cases hstep
      have hknown := h.known _ (List.mem_of_getElem? hc) stored rfl
      unfold afterFindUser
      split
      · split_ifs
        · exact h.setCall_looked hc (by simpa [Phase.stored?] using hknown) rfl rfl rfl
        · exact h.setCall_failed hc _
      · exact h.setCall_failed hc _
    · cases hstep
  -- this write decides which of the calls that hold one token may go on
  | revokeRefreshToken c delivery =>
    simp only [Auth.step] at hstep
    split at hstep
    next stored now hc =>
      cases hstep
      split_ifs with hdone
      · cases (executeWrite_ok hdone).1
        exact h.revokeRefreshToken hc hok
      · exact (h.revoked revoked_executeWrite).setCall_failed hc _
    · cases hstep
  -- the new token is of a family that is not dead
  | insertRefreshToken c tokenId tokenHash expiresAt delivery =>
    simp only [Auth.step] at hstep
    split at hstep
    next stored hc =>
      cases hstep
      have hinserted := h.inserted delivery
        ⟨tokenId, stored.userId, stored.sessionId, tokenHash, stored.familyId, expiresAt⟩
        fun q hq hreused =>
          (h.dead q hq stored.familyId hreused).2.2 _ (List.mem_of_getElem? hc) rfl
      split_ifs with hdone
      · refine hinserted.setCall hc ?_ ?_ (by simp [Phase.insertsInto]) (by simp [Phase.reused])
        · intro stored' hstored'
          cases Option.some.inj hstored'
          exact hinserted.known _ (List.mem_of_getElem? hc) stored rfl
        · exact fun id hid => .inl hid
      · exact hinserted.setCall_failed hc _
    · cases hstep
  -- a family of its own
  | signIn input delivery =>
    cases hstep
    refine h.inserted delivery input fun q hq hreused => ?_
    rcases (h.dead q hq _ hreused).1 with ⟨row, hrow, hfamily⟩
    exact hok row hrow hfamily
  | userChanges userId status =>
    cases hstep
    exact ⟨h.known, h.spent, h.once, h.dead⟩

/-! ## Rotation -/

/-- The token a call has exchanged for a new pair. -/
def Phase.exchanged : Phase → Option Uuid
  | returned (.pair stored _) => some stored.id
  | _ => none

/-- No two calls have exchanged one token. -/
def ExchangedOnce (s : State) : Prop :=
  s.calls.Pairwise fun p q => ∀ id ∈ p.exchanged, id ∉ q.exchanged

/-- Where a call found a revoked token and has returned, the family has no unrevoked token. -/
def ReuseRevokes (s : State) : Prop :=
  ∀ phase ∈ s.calls, ∀ familyId ∈ phase.reused,
    ∀ row ∈ s.tokens, row.familyId = familyId → row.revokedAt ≠ none

instance (s : State) : Decidable (ExchangedOnce s) :=
  inferInstanceAs (Decidable (List.Pairwise _ _))

instance (s : State) : Decidable (ReuseRevokes s) :=
  inferInstanceAs (Decidable (∀ phase ∈ s.calls, ∀ familyId ∈ phase.reused, _))

/-- A token that was exchanged was redeemed by the call. -/
theorem redeems_of_exchanged {phase : Phase} {id : Uuid} (h : id ∈ phase.exchanged) :
    phase.redeems = some id := by
  cases phase with
  | returned ending =>
    cases ending with
    | pair stored minted => exact h
    | reuse stored e => cases h
    | error e => cases h
  | _ => cases h

/-- No token is exchanged twice. -/
theorem Inv.exchangedOnce (h : Inv s) : ExchangedOnce s := by
  refine List.pairwise_iff_getElem.mpr fun i j hi hj hlt id hp hq => ?_
  have heq := h.once i j _ _ (List.getElem?_eq_getElem hi) (List.getElem?_eq_getElem hj) id
    (redeems_of_exchanged hp) (redeems_of_exchanged hq)
  omega

/-- A reuse leaves a dead family. -/
theorem Inv.reuseRevokes (h : Inv s) : ReuseRevokes s :=
  fun phase hphase familyId hreused => (h.dead phase hphase familyId hreused).2.1

/-- Rotation is safe as long as no call revokes a token that has been revoked since the call
found it, and no family is revoked while a token is being inserted into it. -/
theorem rotation_safe {s₀ s : State} {actions : List Action} (hidle : s₀.calls = [])
    (horderly : Machine.Along step Orderly s₀ actions)
    (hrun : Machine.run step s₀ actions = some s) : ExchangedOnce s ∧ ReuseRevokes s := by
  have hinit : Inv s₀ := by
    constructor <;> simp [hidle]
  have hinv := Machine.run_invariant Inv Orderly (fun _ _ _ h hok hstep => h.step hok hstep)
    hinit horderly hrun
  exact ⟨hinv.exchangedOnce, hinv.reuseRevokes⟩

/-- A user with a session: one token, which lives for a month. -/
def session : State where
  tokens := [⟨1, 7, 5, "h1", 9, 2592000, none⟩]
  users := fun userId => if userId = 7 then some .active else none
  calls := []

/-- The token is exchanged, and then presented once more. -/
def reusedToken : List Action :=
  [.call "h1", .findRefreshToken 0 .answered 100, .findUserById 0 .answered,
    .revokeRefreshToken 0 .answered, .insertRefreshToken 0 2 "h2" 2592100 .answered,
    .call "h1", .findRefreshToken 1 .answered 200, .revokeRefreshFamily 1 .answered]

theorem reusedToken_safe : ∃ s ∈ Machine.run step session reusedToken,
    (ExchangedOnce s ∧ ReuseRevokes s) ∧ s.tokens.length = 2 ∧ s.calls.length = 2 := by
  have htested : Machine.checkAlong step (fun s a => decide (Orderly s a)) session reusedToken =
      true := by decide +kernel
  have horderly : Machine.Along step Orderly session reusedToken :=
    Machine.along_of_check (fun _ _ hcheck => of_decide_eq_true hcheck) htested
  have hends : ∃ s ∈ Machine.run step session reusedToken,
      s.tokens.length = 2 ∧ s.calls.length = 2 := by decide +kernel
  rcases hends with ⟨s, hs, hlengths⟩
  exact ⟨s, hs, rotation_safe rfl horderly hs, hlengths⟩

/-- Two calls find the token before either has revoked it; a third finds it revoked and revokes
the family before the first two insert their new tokens. -/
def racingCalls : List Action :=
  [.call "h1", .call "h1", .call "h1",
    .findRefreshToken 0 .answered 100, .findRefreshToken 1 .answered 100,
    .findUserById 0 .answered, .findUserById 1 .answered,
    .revokeRefreshToken 0 .answered, .revokeRefreshToken 1 .answered,
    .findRefreshToken 2 .answered 101, .revokeRefreshFamily 2 .answered,
    .insertRefreshToken 0 2 "h2" 2592100 .answered,
    .insertRefreshToken 1 3 "h3" 2592100 .answered]

/-- Both get a new pair, and both new tokens outlive the revocation of the family. -/
theorem double_redemption : ∃ s ∈ Machine.run step session racingCalls,
    ¬ExchangedOnce s ∧ ¬ReuseRevokes s := by
  decide +kernel

end CryptoCex.Auth
