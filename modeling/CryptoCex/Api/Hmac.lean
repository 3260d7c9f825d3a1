import CryptoCex.Core.Types
import CryptoCex.Lib.Except
import CryptoCex.Lib.Numerals
import CryptoCex.Lib.OrdMap
import Mathlib.Algebra.Order.Group.Unbundled.Int
import Mathlib.Data.String.Basic

/-!
# Signed requests

`verify` checks the headers of a signed request, its timestamp against the clock, and the
signature against the HMAC of timestamp, method, path and body; then it notes the first
characters of the signature in Redis for ten seconds and rejects a request whose note is already
there.

Two things are lost on the way. The note holds the text of the header, and one signature has
many texts: hexadecimal digits in either case, and a plus sign for a leading zero. It also lives
exactly as long as the timestamp stays valid, ends not included. `verifyAll_noReplay` says when
no signature is accepted twice. And a body that is not UTF-8 is signed as if it were empty, so a
signature binds the body of a request only if it can be read (`signature_binds_iff`).
-/

namespace CryptoCex.Api.Hmac

open CryptoCex.Core (Uuid)

/-! ## Requests and what the database answers -/

/-- A header that is not text counts as absent. -/
structure Request where
  /-- `x-aether-key` -/
  key : Option String
  /-- `x-aether-ts` -/
  ts : Option String
  /-- `x-aether-sign` -/
  sign : Option String
  method : String
  pathAndQuery : Option String
  body : ByteArray

structure ApiKeyRow where
  userId : Uuid
  permissions : List String
deriving DecidableEq

/-- What the database answers for a key: its row, unless the key is unknown or revoked, and its
secret, decrypted; either query can fail. -/
structure Lookup where
  findApiKey : Except Unit (Option ApiKeyRow)
  decryptApiKeySecret : Except Unit (Option String)

/-- The error codes of the verification. -/
inductive ErrorCode where
  | sigTimestamp
  | sigReplay
  | sigInvalid
  | internal
deriving DecidableEq

structure ApiError where
  /-- HTTP status. -/
  status : ℕ
  code : ErrorCode
  message : String
deriving DecidableEq

def ApiError.internal : ApiError := ⟨500, .internal, "Something went wrong"⟩

def sigError (code : ErrorCode) (message : String) : ApiError := ⟨401, code, message⟩

/-- `Option::ok_or_else` -/
def okOr {α : Type} (value : Option α) (error : ApiError) : Except ApiError α :=
  value.elim (.error error) .ok

theorem okOr_eq_ok {α : Type} {value : Option α} {error : ApiError} {a : α} :
    okOr value error = .ok a ↔ value = some a := by
  cases value <;> simp [okOr]

theorem mapError_eq_ok {ε α : Type} {x : Except ε α} {f : ε → ApiError} {a : α} :
    x.mapError f = .ok a ↔ x = .ok a := by
  cases x <;> simp [Except.mapError]

def rejectIf (p : Prop) [Decidable p] (error : ApiError) : Except ApiError Unit :=
  if p then .error error else .ok ()

theorem rejectIf_eq_ok {p : Prop} [Decidable p] {error : ApiError} {u : Unit} :
    rejectIf p error = .ok u ↔ ¬p := by
  unfold rejectIf
  split_ifs with hp <;> simp [hp]

structure HmacCaller where
  userId : Uuid
  keyId : Uuid
  permissions : List String
deriving DecidableEq

def maxSkewMs : ℤ := 5000

def replayTtlSecs : ℤ := 10

/-- 4 MiB. -/
def bodyLimit : ℕ := 4 * 1024 * 1024

/-! ## Hexadecimal text -/

def hexDigit (c : Char) : Option ℕ :=
  if '0' ≤ c ∧ c ≤ '9' then some (c.toNat - '0'.toNat)
  else if 'a' ≤ c ∧ c ≤ 'f' then some (c.toNat - 'a'.toNat + 10)
  else if 'A' ≤ c ∧ c ≤ 'F' then some (c.toNat - 'A'.toNat + 10)
  else none

/-- `u8::from_str_radix` on two characters; it takes a plus sign. -/
def byteFromHex (c d : Char) : Option UInt8 :=
  if c = '+' then (hexDigit d).map UInt8.ofNat
  else (hexDigit c).bind fun high => (hexDigit d).map fun low => UInt8.ofNat (16 * high + low)

/-- `decode_hex`, on the characters of the header. -/
def decodeHex : List Char → Option (List UInt8)
  | [] => some []
  | [_] => none
  | c :: d :: rest => (byteFromHex c d).bind fun byte => (decodeHex rest).map (byte :: ·)

/-! ## The signature -/

/-- The path with the query. -/
def Request.path (request : Request) : String := request.pathAndQuery.getD "/"

/-- `std::str::from_utf8(&body_bytes).unwrap_or("")` -/
def bodyStr (body : ByteArray) : String := (String.fromUTF8? body).getD ""

def payload (tsMs : ℤ) (request : Request) : String :=
  toString tsMs ++ "\n" ++ request.method ++ "\n" ++ request.path ++ "\n" ++ bodyStr request.body

/-- What `verify` knows of a request whose signature it has checked. -/
structure Signed where
  keyId : Uuid
  tsMs : ℤ
  signStr : String
  row : ApiKeyRow
  secret : String
  signature : List UInt8
deriving DecidableEq

section

-- `Uuid::parse_str`, and HMAC-SHA256 of a payload under a secret
variable (parseUuid : String → Option Uuid) (mac : String → String → List UInt8)

/-- `verify` up to the replay check. The difference from the clock is exact here. In the code it has
64 bits: one that does not fit them panics in a debug build, and in a release build it wraps, which
keeps it out of the window, but for a difference of exactly `2 ^ 63`. The `abs` of that one is
negative, so a release build lets a timestamp through that lies `2 ^ 63` milliseconds back. -/
def checkSignature (lookup : Uuid → Lookup) (nowMs : ℤ) (request : Request) :
    Except ApiError Signed := do
  let keyIdStr ← okOr request.key (sigError .sigInvalid "Missing X-AETHER-KEY")
  let tsStr ← okOr request.ts (sigError .sigInvalid "Missing X-AETHER-TS")
  let signStr ← okOr request.sign (sigError .sigInvalid "Missing X-AETHER-SIGN")
  let keyId ← okOr (parseUuid keyIdStr) (sigError .sigInvalid "Invalid key ID")
  let tsMs ← okOr (Digits.readInt64 tsStr) (sigError .sigInvalid "Invalid timestamp")
  rejectIf (maxSkewMs < |nowMs - tsMs|) (sigError .sigTimestamp "Timestamp out of window")
  let found ← (lookup keyId).findApiKey.mapError fun _ => .internal
  let row ← okOr found (sigError .sigInvalid "Unknown API key")
  let decrypted ← (lookup keyId).decryptApiKeySecret.mapError fun _ => .internal
  let secret ← okOr decrypted (sigError .sigInvalid "API key has no secret")
  rejectIf (bodyLimit < request.body.size) .internal
  let signature ← okOr (decodeHex signStr.toList)
    (sigError .sigInvalid "Invalid signature encoding")
  rejectIf (mac secret (payload tsMs request) ≠ signature)
    (sigError .sigInvalid "Signature mismatch")
  return { keyId, tsMs, signStr, row, secret, signature }

/-- What a passed check says. -/
structure Checked (lookup : Uuid → Lookup) (nowMs : ℤ) (request : Request) (s : Signed) :
    Prop where
  key : request.key.bind parseUuid = some s.keyId
  ts : request.ts.bind Digits.readInt64 = some s.tsMs
  sign : request.sign = some s.signStr
  skew : |nowMs - s.tsMs| ≤ maxSkewMs
  row : (lookup s.keyId).findApiKey = .ok (some s.row)
  secret : (lookup s.keyId).decryptApiKeySecret = .ok (some s.secret)
  body : request.body.size ≤ bodyLimit
  signature : decodeHex s.signStr.toList = some s.signature
  verified : mac s.secret (payload s.tsMs request) = s.signature

/-- What has been checked when a signature is accepted. -/
theorem checkSignature_eq_ok {lookup : Uuid → Lookup} {nowMs : ℤ} {request : Request}
    {s : Signed} (h : checkSignature parseUuid mac lookup nowMs request = .ok s) :
    Checked parseUuid mac lookup nowMs request s := by
  unfold checkSignature at h
  -- one step for each `?` of the source
  rcases Except.bind_eq_ok.mp h with ⟨keyIdStr, hkey, h⟩
  rcases Except.bind_eq_ok.mp h with ⟨tsStr, hts, h⟩
  rcases Except.bind_eq_ok.mp h with ⟨signStr, hsign, h⟩
  rcases Except.bind_eq_ok.mp h with ⟨keyId, hid, h⟩
  rcases Except.bind_eq_ok.mp h with ⟨tsMs, htime, h⟩
  rcases Except.bind_eq_ok.mp h with ⟨_, hskew, h⟩
  rcases Except.bind_eq_ok.mp h with ⟨found, hfound, h⟩
  rcases Except.bind_eq_ok.mp h with ⟨row, hrow, h⟩
  rcases Except.bind_eq_ok.mp h with ⟨decrypted, hdecrypted, h⟩
  rcases Except.bind_eq_ok.mp h with ⟨secret, hsecret, h⟩
  rcases Except.bind_eq_ok.mp h with ⟨_, hbody, h⟩
  rcases Except.bind_eq_ok.mp h with ⟨signature, hsignature, h⟩
  rcases Except.bind_eq_ok.mp h with ⟨_, hverified, h⟩
  cases h
  rw [okOr_eq_ok] at hkey hts hsign hid htime hrow hsecret hsignature
  rw [mapError_eq_ok] at hfound hdecrypted
  rw [rejectIf_eq_ok] at hskew hbody hverified
  subst hrow hsecret
  constructor
  · simp [hkey, hid]
  · simp [hts, htime]
  · exact hsign
  · exact not_lt.mp hskew
  · exact hfound
  · exact hdecrypted
  · exact not_lt.mp hbody
  · exact hsignature
  · exact not_not.mp hverified

/-- What the check asks for is enough to pass it. -/
theorem Checked.passes {lookup : Uuid → Lookup} {nowMs : ℤ} {request : Request} {s : Signed}
    (h : Checked parseUuid mac lookup nowMs request s) :
    checkSignature parseUuid mac lookup nowMs request = .ok s := by
  obtain ⟨keyIdStr, hkey, hid⟩ := Option.bind_eq_some_iff.mp h.key
  obtain ⟨tsStr, hts, htime⟩ := Option.bind_eq_some_iff.mp h.ts
  unfold checkSignature
  refine Except.bind_eq_ok.mpr ⟨keyIdStr, okOr_eq_ok.mpr hkey, ?_⟩
  refine Except.bind_eq_ok.mpr ⟨tsStr, okOr_eq_ok.mpr hts, ?_⟩
  refine Except.bind_eq_ok.mpr ⟨s.signStr, okOr_eq_ok.mpr h.sign, ?_⟩
  refine Except.bind_eq_ok.mpr ⟨s.keyId, okOr_eq_ok.mpr hid, ?_⟩
  refine Except.bind_eq_ok.mpr ⟨s.tsMs, okOr_eq_ok.mpr htime, ?_⟩
  refine Except.bind_eq_ok.mpr ⟨(), rejectIf_eq_ok.mpr (not_lt.mpr h.skew), ?_⟩
  refine Except.bind_eq_ok.mpr ⟨some s.row, mapError_eq_ok.mpr h.row, ?_⟩
  refine Except.bind_eq_ok.mpr ⟨s.row, okOr_eq_ok.mpr rfl, ?_⟩
  refine Except.bind_eq_ok.mpr ⟨some s.secret, mapError_eq_ok.mpr h.secret, ?_⟩
  refine Except.bind_eq_ok.mpr ⟨s.secret, okOr_eq_ok.mpr rfl, ?_⟩
  refine Except.bind_eq_ok.mpr ⟨(), rejectIf_eq_ok.mpr (not_lt.mpr h.body), ?_⟩
  refine Except.bind_eq_ok.mpr ⟨s.signature, okOr_eq_ok.mpr h.signature, ?_⟩
  exact Except.bind_eq_ok.mpr ⟨(), rejectIf_eq_ok.mpr (not_not.mpr h.verified), rfl⟩

end

/-! ## What a signature binds -/

/-- Two texts of which the first line ends at the first newline are equal line by line. -/
theorem line_inj {s s' t t' : String} (hs : '\n' ∉ s.toList) (hs' : '\n' ∉ s'.toList)
    (h : s ++ ("\n" ++ t) = s' ++ ("\n" ++ t')) : s = s' ∧ t = t' := by
  have hlist := congrArg String.toList h
  simp only [String.toList_append] at hlist
  rcases Digits.append_separator_inj hs hs' hlist with ⟨hleft, hright⟩
  exact ⟨String.toList_inj.mp hleft, String.toList_inj.mp hright⟩

/-- A number is written on one line. -/
theorem newline_not_mem_toString (n : ℤ) : '\n' ∉ (toString n).toList := by
  intro h
  rcases Digits.isDigit_of_mem_toString h with h | h
  · exact absurd h (by decide)
  · exact absurd h (by decide)

/-- The body is signed as if it were empty. -/
def Lost (body : ByteArray) : Prop := body.size = 0 ∨ ¬body.IsValidUTF8

theorem bodyStr_of_valid {body : ByteArray} (h : body.IsValidUTF8) :
    (bodyStr body).toByteArray = body := by
  simp only [bodyStr, String.fromUTF8?, h, dif_pos, Option.getD_some]
  rfl

/-- The text that is signed for a body is empty if the body is empty or is not UTF-8. -/
theorem bodyStr_eq_empty {body : ByteArray} : bodyStr body = "" ↔ Lost body := by
  by_cases hvalid : body.IsValidUTF8
  · have hbytes := bodyStr_of_valid hvalid
    rw [Lost, or_iff_left (not_not.mpr hvalid), ← String.toByteArray_inj, hbytes,
      ByteArray.size_eq_zero_iff]
    rfl
  · have hempty : bodyStr body = "" := by simp [bodyStr, String.fromUTF8?, hvalid]
    exact ⟨fun _ => Or.inr hvalid, fun _ => hempty⟩

/-- Bodies that are read alike are equal if and only if they are when both are lost. -/
theorem body_eq_iff {body body' : ByteArray} (h : bodyStr body = bodyStr body') :
    body = body' ↔ (Lost body → Lost body' → body = body') := by
  refine ⟨fun heq _ _ => heq, fun hlost => ?_⟩
  -- either both bodies are lost or neither is, since they read alike
  by_cases hbody : Lost body
  · have hbody' : Lost body' := by
      rw [← bodyStr_eq_empty, ← h]
      exact bodyStr_eq_empty.mpr hbody
    exact hlost hbody hbody'
  · have hbody' : ¬Lost body' := by
      rw [← bodyStr_eq_empty, ← h]
      exact fun hempty => hbody (bodyStr_eq_empty.mp hempty)
    have hvalid : body.IsValidUTF8 := not_not.mp fun hn => hbody (Or.inr hn)
    have hvalid' : body'.IsValidUTF8 := not_not.mp fun hn => hbody' (Or.inr hn)
    rw [← bodyStr_of_valid hvalid, ← bodyStr_of_valid hvalid', h]

/-- The method and the path hold no line break, as HTTP has it. -/
structure SingleLines (request : Request) : Prop where
  method : '\n' ∉ request.method.toList
  path : '\n' ∉ request.path.toList

/-- Different requests are signed as different payloads, up to a body that is lost. -/
theorem payload_inj {tsMs tsMs' : ℤ} {request request' : Request} (hlines : SingleLines request)
    (hlines' : SingleLines request') (h : payload tsMs request = payload tsMs' request') :
    tsMs = tsMs' ∧ request.method = request'.method ∧ request.path = request'.path ∧
      bodyStr request.body = bodyStr request'.body := by
  simp only [payload, String.append_assoc] at h
  rcases line_inj (newline_not_mem_toString _) (newline_not_mem_toString _) h with ⟨hts, h⟩
  rcases line_inj hlines.method hlines'.method h with ⟨hmethod, h⟩
  rcases line_inj hlines.path hlines'.path h with ⟨hpath, hbody⟩
  exact ⟨Digits.toString_inj.mp hts, hmethod, hpath, hbody⟩

section

variable {parseUuid : String → Option Uuid} {mac : String → String → List UInt8}

/-- Two requests of one key with one signature have the same timestamp, method, path and body,
unless different bodies are both signed as if they were empty. -/
theorem signature_binds_iff {lookup lookup' : Uuid → Lookup} {nowMs nowMs' : ℤ}
    {request request' : Request} {s s' : Signed}
    (hchecked : checkSignature parseUuid mac lookup nowMs request = .ok s)
    (hchecked' : checkSignature parseUuid mac lookup' nowMs' request' = .ok s')
    (hkey : s.keyId = s'.keyId)
    (hsecret : (lookup s.keyId).decryptApiKeySecret = (lookup' s.keyId).decryptApiKeySecret)
    (hsignature : s.signature = s'.signature)
    (hcollide : mac s.secret (payload s.tsMs request) = mac s.secret (payload s'.tsMs request') →
      payload s.tsMs request = payload s'.tsMs request')
    (hlines : SingleLines request) (hlines' : SingleLines request') :
    (s.tsMs = s'.tsMs ∧ request.method = request'.method ∧ request.path = request'.path ∧
        request.body = request'.body) ↔
      (Lost request.body → Lost request'.body → request.body = request'.body) := by
  have h := checkSignature_eq_ok _ _ hchecked
  have h' := checkSignature_eq_ok _ _ hchecked'
  have hsame : s.secret = s'.secret := by
    have hfound := h.secret
    rw [hsecret, hkey, h'.secret] at hfound
    exact Option.some.inj (Except.ok.inj hfound).symm
  have hpayload : payload s.tsMs request = payload s'.tsMs request' := by
    apply hcollide
    rw [h.verified, hsignature, ← h'.verified, hsame]
  rcases payload_inj hlines hlines' hpayload with ⟨hts, hmethod, hpath, hbody⟩
  rw [← body_eq_iff hbody]
  simp [hts, hmethod, hpath]

end

/-! ## The replay check -/

/-- The notes in Redis: the key of a note and when it expires, in milliseconds. -/
abbrev Notes := OrdMap String ℤ

/-- `SET key 1 NX EX REPLAY_TTL_SECS`; without Redis nothing is checked. -/
def checkReplay (redis : Option Notes) (key : String) (nowMs : ℤ) :
    Option Notes × Except ApiError Unit :=
  match redis with
  | none => (none, .ok ())
  | some notes =>
    if ∃ expiresAt ∈ notes.find? key, nowMs < expiresAt then
      (some notes, .error ⟨401, .sigReplay, "Signature replay detected"⟩)
    else (some (notes.insert key (nowMs + replayTtlSecs * 1000)), .ok ())

/-- The first characters of the header. -/
def sigPrefix (signStr : String) : String := String.ofList (signStr.toList.take 12)

/-- A request when it is verified, and what the database answers then. -/
structure Arrival where
  nowMs : ℤ
  request : Request
  lookup : Uuid → Lookup

section

-- as before, and the text of a UUID
variable (parseUuid : String → Option Uuid) (formatUuid : Uuid → String)
  (mac : String → String → List UInt8)

def replayKey (s : Signed) : String :=
  "hmac_replay:" ++ formatUuid s.keyId ++ ":" ++ sigPrefix s.signStr

def Arrival.check (a : Arrival) : Except ApiError Signed :=
  checkSignature parseUuid mac a.lookup a.nowMs a.request

def verify (redis : Option Notes) (a : Arrival) : Option Notes × Except ApiError HmacCaller :=
  match a.check parseUuid mac with
  | .error error => (redis, .error error)
  | .ok s =>
    match checkReplay redis (replayKey formatUuid s) a.nowMs with
    | (redis, .error error) => (redis, .error error)
    | (redis, .ok ()) => (redis, .ok ⟨s.row.userId, s.keyId, s.row.permissions⟩)

/-- The requests verified one after the other, each with its answer, and Redis after them. -/
def verifyAll (redis : Option Notes) (arrivals : List Arrival) :
    Option Notes × List (Arrival × Except ApiError HmacCaller) :=
  arrivals.foldl
    (fun (redis, log) a =>
      let (redis, answer) := verify parseUuid formatUuid mac redis a
      (redis, log ++ [(a, answer)]))
    (redis, [])

/-- Both requests carry the same signature for the same key and time. -/
def SameSignature (s s' : Signed) : Prop :=
  s.keyId = s'.keyId ∧ s.tsMs = s'.tsMs ∧ s.signature = s'.signature

/-- No signature is accepted twice. -/
def NoReplay (log : List (Arrival × Except ApiError HmacCaller)) : Prop :=
  log.Pairwise fun x y => ∀ s s', x.1.check parseUuid mac = .ok s →
    y.1.check parseUuid mac = .ok s' → SameSignature s s' →
      ∀ caller, x.2 = .ok caller → ∀ caller', y.2 ≠ .ok caller'

/-- A signature that is good a second time is written as the first time, as far as the note goes,
and the two do not come at both ends of the time for which its timestamp is good. -/
def WrittenAlike (arrivals : List Arrival) : Prop :=
  arrivals.Pairwise fun a b => ∀ s s', a.check parseUuid mac = .ok s →
    b.check parseUuid mac = .ok s' → SameSignature s s' →
      sigPrefix s.signStr = sigPrefix s'.signStr ∧
        ¬(a.nowMs = s.tsMs - maxSkewMs ∧ b.nowMs = s.tsMs + maxSkewMs)

end

section

variable {parseUuid : String → Option Uuid} {formatUuid : Uuid → String}
  {mac : String → String → List UInt8} {notes : Notes} {redis : Option Notes} {a : Arrival}

/-- What an accepted request says. -/
theorem verify_eq_ok {caller : HmacCaller}
    (h : verify parseUuid formatUuid mac (some notes) a = (redis, .ok caller)) :
    ∃ s, a.check parseUuid mac = .ok s ∧
      (∀ expiresAt, notes.find? (replayKey formatUuid s) = some expiresAt →
        expiresAt ≤ a.nowMs) ∧
      redis = some (notes.insert (replayKey formatUuid s) (a.nowMs + replayTtlSecs * 1000)) := by
  unfold verify at h
  cases hcheck : a.check parseUuid mac with
  | error error => simp [hcheck] at h
  | ok s =>
    simp only [hcheck, checkReplay] at h
    split_ifs at h with hthere
    · simp at h
    · refine ⟨s, rfl, ?_, (Prod.ext_iff.mp h).1.symm⟩
      intro expiresAt hfind
      by_contra hlate
      exact hthere ⟨expiresAt, hfind, not_le.mp hlate⟩

/-- A rejected request leaves no note. -/
theorem verify_eq_error {error : ApiError}
    (h : verify parseUuid formatUuid mac (some notes) a = (redis, .error error)) :
    redis = some notes := by
  unfold verify at h
  cases hcheck : a.check parseUuid mac with
  | error error =>
    simp only [hcheck] at h
    exact (Prod.ext_iff.mp h).1.symm
  | ok s =>
    simp only [hcheck, checkReplay] at h
    split_ifs at h with hthere
    · exact (Prod.ext_iff.mp h).1.symm
    · simp at h

/-- A checked request without a note is accepted and noted. -/
theorem verify_of_fresh {s : Signed} (hcheck : a.check parseUuid mac = .ok s)
    (hfresh : ∀ expiresAt, notes.find? (replayKey formatUuid s) = some expiresAt →
      expiresAt ≤ a.nowMs) :
    verify parseUuid formatUuid mac (some notes) a =
      (some (notes.insert (replayKey formatUuid s) (a.nowMs + replayTtlSecs * 1000)),
        .ok ⟨s.row.userId, s.keyId, s.row.permissions⟩) := by
  have hnot : ¬∃ expiresAt ∈ notes.find? (replayKey formatUuid s), a.nowMs < expiresAt := by
    rintro ⟨expiresAt, hfind, hlive⟩
    exact absurd (hfresh expiresAt hfind) (not_le.mpr hlive)
  unfold verify
  simp only [hcheck, checkReplay, if_neg hnot]

/-- The note of an accepted request stands until its time has passed. -/
def Noted (parseUuid : String → Option Uuid) (formatUuid : Uuid → String)
    (mac : String → String → List UInt8) (notes : Notes)
    (log : List (Arrival × Except ApiError HmacCaller)) : Prop :=
  ∀ x ∈ log, ∀ s caller, x.1.check parseUuid mac = .ok s → x.2 = .ok caller →
    ∃ expiresAt, notes.find? (replayKey formatUuid s) = some expiresAt ∧
      x.1.nowMs + replayTtlSecs * 1000 ≤ expiresAt

/-- An accepted request adds its note. -/
theorem Noted.insert {log : List (Arrival × Except ApiError HmacCaller)} {s : Signed}
    {caller : HmacCaller} (h : Noted parseUuid formatUuid mac notes log)
    (hpast : ∀ x ∈ log, x.1.nowMs ≤ a.nowMs) (hcheck : a.check parseUuid mac = .ok s) :
    Noted parseUuid formatUuid mac
      (notes.insert (replayKey formatUuid s) (a.nowMs + replayTtlSecs * 1000))
      (log ++ [(a, .ok caller)]) := by
  intro x hx s' caller' hcheck' hok
  rcases List.mem_append.mp hx with hx | hx
  · rw [OrdMap.find?_insert]
    split_ifs with hkey
    · refine ⟨_, rfl, ?_⟩
      have := hpast x hx
      omega
    · exact h x hx s' caller' hcheck' hok
  · rw [List.mem_singleton] at hx
    subst hx
    have hs : s = s' := Except.ok.inj (hcheck.symm.trans hcheck')
    subst hs
    exact ⟨_, OrdMap.find?_insert_self _ _ _, le_rfl⟩

/-- The note of an accepted request stops the same signature, written alike, as long as its
timestamp is good. -/
theorem Noted.stops {log : List (Arrival × Except ApiError HmacCaller)} {s s' : Signed}
    {x : Arrival × Except ApiError HmacCaller} {caller : HmacCaller}
    (h : Noted parseUuid formatUuid mac notes log) (hx : x ∈ log)
    (hcheck : x.1.check parseUuid mac = .ok s) (hok : x.2 = .ok caller)
    (hcheck' : a.check parseUuid mac = .ok s') (hsame : SameSignature s s')
    (hwritten : sigPrefix s.signStr = sigPrefix s'.signStr)
    (hends : ¬(x.1.nowMs = s.tsMs - maxSkewMs ∧ a.nowMs = s.tsMs + maxSkewMs)) :
    ∃ expiresAt, notes.find? (replayKey formatUuid s') = some expiresAt ∧
      a.nowMs < expiresAt := by
  rcases h x hx s caller hcheck hok with ⟨expiresAt, hfind, hlate⟩
  have hkey : replayKey formatUuid s' = replayKey formatUuid s := by
    rw [replayKey, replayKey, hsame.1, hwritten]
  refine ⟨expiresAt, hkey ▸ hfind, ?_⟩
  -- both requests come while the timestamp is good, at most ten seconds apart
  have hskew := abs_le.mp (checkSignature_eq_ok _ _ hcheck).skew
  have hskew' := abs_le.mp (checkSignature_eq_ok _ _ hcheck').skew
  have hts := hsame.2.1
  simp only [maxSkewMs, replayTtlSecs] at hskew hskew' hlate hends
  omega

/-- The last arrival is checked against what the others left. -/
theorem verifyAll_concat (redis : Option Notes) (arrivals : List Arrival) (a : Arrival) :
    verifyAll parseUuid formatUuid mac redis (arrivals ++ [a]) =
      let before := verifyAll parseUuid formatUuid mac redis arrivals
      let last := verify parseUuid formatUuid mac before.1 a
      (last.1, before.2 ++ [(a, last.2)]) := by
  simp [verifyAll]

theorem verifyAll_pair (redis : Option Notes) (a b : Arrival) :
    (verifyAll parseUuid formatUuid mac redis [a, b]).2 =
      [(a, (verify parseUuid formatUuid mac redis a).2),
        (b, (verify parseUuid formatUuid mac
          (verify parseUuid formatUuid mac redis a).1 b).2)] := rfl

/-- What holds along a run: the notes stand, and nothing was accepted twice. -/
theorem verifyAll_noted (notes : Notes) {arrivals : List Arrival}
    (hsorted : (arrivals.map Arrival.nowMs).Pairwise (· ≤ ·))
    (hwritten : WrittenAlike parseUuid mac arrivals) :
    ∃ notes' log, verifyAll parseUuid formatUuid mac (some notes) arrivals = (some notes', log) ∧
      log.map Prod.fst = arrivals ∧ Noted parseUuid formatUuid mac notes' log ∧
      NoReplay parseUuid mac log := by
  induction arrivals using List.reverseRecOn with
  | nil =>
    have hnoted : Noted parseUuid formatUuid mac notes [] := by
      intro x hx
      cases hx
    exact ⟨notes, [], rfl, rfl, hnoted, List.Pairwise.nil⟩
  | append_singleton arrivals a ih =>
    rw [List.map_append, List.pairwise_append] at hsorted
    rw [WrittenAlike, List.pairwise_append] at hwritten
    rcases ih hsorted.1 hwritten.1 with ⟨notes', log, hrun, hlog, hnoted, hreplay⟩
    have hmem : ∀ x ∈ log, x.1 ∈ arrivals := by
      intro x hx
      rw [← hlog]
      exact List.mem_map_of_mem hx
    have hpast : ∀ x ∈ log, x.1.nowMs ≤ a.nowMs := fun x hx =>
      hsorted.2.2 _ (List.mem_map_of_mem (hmem x hx)) _ (by simp)
    rw [verifyAll_concat, hrun]
    simp only
    -- a rejected request changes nothing, an accepted one must not repeat a signature
    rcases hverify : verify parseUuid formatUuid mac (some notes') a with ⟨redis, error | caller⟩
    · have hredis := verify_eq_error hverify
      refine ⟨notes', log ++ [(a, .error error)], by rw [hredis], by simp [hlog], ?_, ?_⟩
      · intro x hx s caller hcheck hok
        rcases List.mem_append.mp hx with hx | hx
        · exact hnoted x hx s caller hcheck hok
        · rw [List.mem_singleton.mp hx] at hok
          cases hok
      · refine List.pairwise_append.mpr ⟨hreplay, List.pairwise_singleton _ _, ?_⟩
        intro x _ y hy s s' _ _ _ _ _ caller'
        rw [List.mem_singleton.mp hy]
        simp
    · rcases verify_eq_ok hverify with ⟨s, hcheck, hgone, hredis⟩
      refine ⟨_, log ++ [(a, .ok caller)], by rw [hredis], by simp [hlog],
        hnoted.insert hpast hcheck, ?_⟩
      refine List.pairwise_append.mpr ⟨hreplay, List.pairwise_singleton _ _, ?_⟩
      intro x hx y hy s₁ s₂ hcheck₁ hcheck₂ hsame caller₁ hok _ _
      rw [List.mem_singleton] at hy
      subst hy
      have hs : s = s₂ := Except.ok.inj (hcheck.symm.trans hcheck₂)
      subst hs
      -- the note of the earlier request would still stand
      rcases hwritten.2.2 x.1 (hmem x hx) a (List.mem_singleton_self a) s₁ s hcheck₁ hcheck hsame
        with ⟨hbegins, hends⟩
      rcases hnoted.stops hx hcheck₁ hok hcheck hsame hbegins hends with ⟨e, hfind, hlive⟩
      exact absurd (hgone e hfind) (not_le.mpr hlive)

/-- In a run whose signatures are written alike none is accepted twice. -/
theorem verifyAll_noReplay (formatUuid : Uuid → String) (notes : Notes) {arrivals : List Arrival}
    (hsorted : (arrivals.map Arrival.nowMs).Pairwise (· ≤ ·))
    (hwritten : WrittenAlike parseUuid mac arrivals) :
    NoReplay parseUuid mac (verifyAll parseUuid formatUuid mac (some notes) arrivals).2 := by
  rcases verifyAll_noted notes hsorted hwritten with ⟨_, _, hrun, _, _, hreplay⟩
  rw [hrun]
  exact hreplay

end

/-! ### A key and its requests -/

def sampleUuid (text : String) : Option Uuid :=
  if text = "00000000-0000-0000-0000-000000000001" then some 1 else none

def sampleLookup (_ : Uuid) : Lookup := ⟨.ok (some ⟨2, ["trade"]⟩), .ok (some "aether")⟩

/-- HMAC-SHA256 of an order and of a request whose body reads as empty. -/
def sampleMac (secret payload : String) : List UInt8 :=
  if secret = "aether" ∧ payload = "1700000000000\nPOST\n/api/v1/orders\n\x7b\x7d" then
    [0x61, 0x45, 0x12, 0xc3, 0x8b, 0xa1, 0xa2, 0xf7, 0x6f, 0x5d, 0x57, 0x16, 0xaf, 0xaf, 0xf5,
    0x56, 0x96, 0x92, 0x51, 0xaa, 0x0a, 0xfb, 0xef, 0xe2, 0x62, 0x36, 0x3f, 0xeb, 0xab, 0x69,
    0xc7, 0xec]
  else if secret = "aether" ∧ payload = "1700000000000\nPOST\n/api/v1/orders\n" then
    [0xc1, 0x76, 0xea, 0xc9, 0xe9, 0xa4, 0x3d, 0x9d, 0xb8, 0xf3, 0x3a, 0x47, 0xcb, 0x80, 0xdd,
    0xcd, 0x90, 0xf3, 0xda, 0x58, 0x56, 0x16, 0xe6, 0x7f, 0xbe, 0x3c, 0xc9, 0x40, 0x59, 0xb8,
    0xfa, 0xf4]
  else []

def sampleRequest (sign : String) (body : ByteArray) : Request where
  key := some "00000000-0000-0000-0000-000000000001"
  ts := some "1700000000000"
  sign := some sign
  method := "POST"
  pathAndQuery := some "/api/v1/orders"
  body := body

def orderSign : String := "614512c38ba1a2f76f5d5716afaff556969251aa0afbefe262363febab69c7ec"

def emptySign : String := "c176eac9e9a43d9db8f33a47cb80ddcd90f3da585616e67fbe3cc94059b8faf4"

/-- The order, its body two braces. -/
def sampleOrder (sign : String) : Request := sampleRequest sign "\x7b\x7d".toUTF8

def signedAs (signStr : String) (signature : List UInt8) : Signed :=
  ⟨1, 1700000000000, signStr, ⟨2, ["trade"]⟩, "aether", signature⟩

def orderMac : List UInt8 :=
  sampleMac "aether" "1700000000000\nPOST\n/api/v1/orders\n\x7b\x7d"

theorem checkSignature_order :
    checkSignature sampleUuid sampleMac sampleLookup 1700000000000 (sampleOrder orderSign) =
      .ok (signedAs orderSign orderMac) := by
  decide +kernel

/-- The order a millisecond later, under another way to write the signature. -/
theorem checkSignature_order_later {sign : String}
    (hsign : decodeHex sign.toList = some orderMac) :
    checkSignature sampleUuid sampleMac sampleLookup 1700000000001 (sampleOrder sign) =
      .ok (signedAs sign orderMac) := by
  have hfirst := checkSignature_eq_ok _ _ checkSignature_order
  have hskew : |(1700000000001 : ℤ) - 1700000000000| ≤ maxSkewMs := by decide
  apply Checked.passes
  exact { key := hfirst.key, ts := hfirst.ts, sign := rfl, skew := hskew, row := rfl,
          secret := rfl, body := hfirst.body, signature := hsign, verified := hfirst.verified }

theorem toUpper_orderSign : orderSign.toUpper =
    "614512C38BA1A2F76F5D5716AFAFF556969251AA0AFBEFE262363FEBAB69C7EC" := by
  decide +kernel

/-- The signature in capitals is the same signature. -/
theorem checkSignature_order_upper :
    checkSignature sampleUuid sampleMac sampleLookup 1700000000001
      (sampleOrder orderSign.toUpper) = .ok (signedAs orderSign.toUpper orderMac) := by
  apply checkSignature_order_later
  rw [toUpper_orderSign]
  decide +kernel

/-- The order as it is first sent, and what is sent a millisecond later. -/
def sampleArrival (nowMs : ℤ) (sign : String) : Arrival := ⟨nowMs, sampleOrder sign, sampleLookup⟩

theorem verifyAll_noReplay_order :
    NoReplay sampleUuid sampleMac (verifyAll sampleUuid toString sampleMac (some OrdMap.empty)
      [sampleArrival 1700000000000 orderSign, sampleArrival 1700000000001 orderSign]).2 := by
  refine verifyAll_noReplay toString OrdMap.empty (by decide) ?_
  refine List.pairwise_cons.mpr ⟨?_, List.pairwise_singleton _ _⟩
  intro b hb s s' hcheck hcheck' _
  rw [List.mem_singleton] at hb
  subst hb
  have hagain : (sampleArrival 1700000000001 orderSign).check sampleUuid sampleMac =
      .ok (signedAs orderSign orderMac) :=
    checkSignature_order_later (checkSignature_eq_ok _ _ checkSignature_order).signature
  have hs : signedAs orderSign orderMac = s :=
    Except.ok.inj (checkSignature_order.symm.trans hcheck)
  have hs' : signedAs orderSign orderMac = s' := Except.ok.inj (hagain.symm.trans hcheck')
  rw [← hs, ← hs']
  refine ⟨rfl, ?_⟩
  decide

/-- Sent again with its signature in capitals, the order is accepted again. -/
theorem replay_in_capitals :
    ¬NoReplay sampleUuid sampleMac (verifyAll sampleUuid toString sampleMac (some OrdMap.empty)
      [sampleArrival 1700000000000 orderSign,
        sampleArrival 1700000000001 orderSign.toUpper]).2 := by
  intro h
  have hfirst : verify sampleUuid toString sampleMac (some OrdMap.empty)
      (sampleArrival 1700000000000 orderSign) =
        (some (OrdMap.empty.insert (replayKey toString (signedAs orderSign orderMac))
          (1700000000000 + replayTtlSecs * 1000)), .ok ⟨2, 1, ["trade"]⟩) :=
    verify_of_fresh checkSignature_order fun _ hfind => by cases hfind
  -- the two notes have different names, so the second request finds none
  have hother : replayKey toString (signedAs orderSign.toUpper orderMac) ≠
      replayKey toString (signedAs orderSign orderMac) := by
    rw [toUpper_orderSign]
    decide +kernel
  have hagain : (verify sampleUuid toString sampleMac
      (verify sampleUuid toString sampleMac (some OrdMap.empty)
        (sampleArrival 1700000000000 orderSign)).1
      (sampleArrival 1700000000001 orderSign.toUpper)).2 = .ok ⟨2, 1, ["trade"]⟩ := by
    have hcheck : (sampleArrival 1700000000001 orderSign.toUpper).check sampleUuid sampleMac =
        .ok (signedAs orderSign.toUpper orderMac) := checkSignature_order_upper
    rw [hfirst, verify_of_fresh hcheck]
    · rfl
    · intro expiresAt hfind
      rw [OrdMap.find?_insert, if_neg hother] at hfind
      cases hfind
  rw [verifyAll_pair, hfirst] at h
  have hpair := (List.pairwise_cons.mp h).1 _ List.mem_cons_self
  rw [hfirst] at hagain
  exact hpair _ _ checkSignature_order checkSignature_order_upper ⟨rfl, rfl, rfl⟩ _ rfl _ hagain

theorem singleLines_sampleRequest (sign : String) (body : ByteArray) :
    SingleLines (sampleRequest sign body) := by
  constructor
  · change '\n' ∉ "POST".toList
    decide
  · change '\n' ∉ "/api/v1/orders".toList
    decide

theorem signature_binds_order :
    ((signedAs orderSign orderMac).tsMs = (signedAs orderSign.toUpper orderMac).tsMs ∧
        (sampleOrder orderSign).method = (sampleOrder orderSign.toUpper).method ∧
        (sampleOrder orderSign).path = (sampleOrder orderSign.toUpper).path ∧
        (sampleOrder orderSign).body = (sampleOrder orderSign.toUpper).body) ↔
      (Lost (sampleOrder orderSign).body → Lost (sampleOrder orderSign.toUpper).body →
        (sampleOrder orderSign).body = (sampleOrder orderSign.toUpper).body) :=
  signature_binds_iff checkSignature_order checkSignature_order_upper rfl rfl rfl
    (fun _ => rfl) (singleLines_sampleRequest _ _) (singleLines_sampleRequest _ _)

/-- Under one signature a body that cannot be read passes for no body. -/
theorem unreadable_body_passes :
    let mac := sampleMac "aether" "1700000000000\nPOST\n/api/v1/orders\n"
    checkSignature sampleUuid sampleMac sampleLookup 1700000000000
        (sampleRequest emptySign ⟨#[]⟩) = .ok (signedAs emptySign mac) ∧
      checkSignature sampleUuid sampleMac sampleLookup 1700000000000
        (sampleRequest emptySign ⟨#[0xff]⟩) = .ok (signedAs emptySign mac) ∧
      payload 1700000000000 (sampleRequest emptySign ⟨#[]⟩) =
        payload 1700000000000 (sampleRequest emptySign ⟨#[0xff]⟩) ∧
      (⟨#[]⟩ : ByteArray) ≠ ⟨#[0xff]⟩ := by
  refine ⟨?_, ?_, ?_, ?_⟩
  · decide +kernel
  · decide +kernel
  · decide +kernel
  · decide +kernel

end CryptoCex.Api.Hmac
