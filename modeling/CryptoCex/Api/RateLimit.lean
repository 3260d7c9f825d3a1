import CryptoCex.Lib.Digits
import CryptoCex.Lib.OrdMap
import CryptoCex.Lib.SlidingWindow
import CryptoCex.Server.Wire
import Mathlib.Data.List.DropRight
import Mathlib.Data.String.Basic

/-!
# The rate limiter

A Lua script keeps, under a key of Redis, the requests let in during the last window and lets
one more in while they are fewer than the limit. On the auth paths the key names the client
alone, and no window holds more than the limit. On the other paths the key also carries the
number of the minute, so the script forgets everything when a minute ends: a window across the
end can hold up to twice the limit (`slidingWindow_iff`).
-/

namespace CryptoCex.Api.RateLimit

open SlidingWindow
open Server (isWhiteSpace)

/-! ## Classes of requests -/

/-- What the limiter reads of a request. A header that is not text counts as absent. -/
structure Request where
  path : String
  /-- `x-forwarded-for` -/
  forwardedFor : Option String
  authorization : Option String

def startsWith (start s : String) : Bool := start.toList.isPrefixOf s.toList

/-- `str::strip_prefix` -/
def stripStart (start s : String) : Option String :=
  if startsWith start s then some (String.ofList (s.toList.drop start.toList.length)) else none

def trim (s : String) : String :=
  String.ofList ((s.toList.dropWhile isWhiteSpace).rdropWhile isWhiteSpace)

def extractIp (request : Request) : String :=
  ((request.forwardedFor.map fun v => trim (String.ofList (v.toList.takeWhile (· ≠ ',')))).filter
    (· ≠ "")).getD "unknown"

section

-- the subject of a token, whose signature is not checked
variable (decodeSub : String → Option String)

def extractUserKey (request : Request) : Option String :=
  ((request.authorization.bind (stripStart "Bearer ")).map trim).bind decodeSub

/-- The clock is in milliseconds since the epoch and never negative. -/
def windowBucket (nowMs windowMs : ℕ) : ℕ := nowMs / windowMs

/-- The limit, the window and the key. -/
def classifyRequest (request : Request) (nowMs : ℕ) : ℕ × ℕ × String :=
  let ip := extractIp request
  if startsWith "/api/v1/auth/" request.path then
    (10, 15 * 60 * 1000, "rl:auth:" ++ ip)
  else
    let bucket := toString (windowBucket nowMs 60000)
    if startsWith "/api/v1/orders" request.path then
      match extractUserKey decodeSub request with
      | none => (30, 60000, "rl:orders:ip:" ++ ip ++ ":" ++ bucket)
      | some uid => (60, 60000, "rl:orders:user:" ++ uid ++ ":" ++ bucket)
    else
      match extractUserKey decodeSub request with
      | none => (30, 60000, "rl:read:ip:" ++ ip ++ ":" ++ bucket)
      | some uid => (600, 60000, "rl:read:user:" ++ uid ++ ":" ++ bucket)

end

/-! ## The script -/

/-- A sorted set of members and their scores, and when its key expires. -/
structure SortedSet where
  entries : List (String × ℕ)
  expiresAt : ℕ
deriving Inhabited

abbrev Redis := OrdMap String SortedSet

/-- The entries under a key; an absent key is an empty set. -/
def entriesOf (redis : Redis) (key : String) : List (String × ℕ) :=
  ((redis.find? key).map SortedSet.entries).getD []

/-- A key may be gone once it has expired. -/
def expire (redis : Redis) (key : String) (now : ℕ) (lapsed : Bool) : Redis :=
  match redis.find? key with
  | some set => if lapsed ∧ set.expiresAt ≤ now then redis.erase key else redis
  | none => redis

/-- `ZREMRANGEBYSCORE key -inf now-window`: a set left empty is removed. -/
def zremrangebyscore (redis : Redis) (key : String) (now window : ℕ) : Redis :=
  match redis.find? key with
  | some set =>
    let entries := set.entries.filter fun entry => now < entry.2 + window
    if entries.isEmpty then redis.erase key else redis.insert key { set with entries }
  | none => redis

/-- `ZADD key now member`, followed by `PEXPIRE key window+1000`. -/
def zadd (redis : Redis) (key : String) (now window : ℕ) (member : String) : Redis :=
  redis.insert key
    ⟨(entriesOf redis key).filter (fun entry => entry.1 ≠ member) ++ [(member, now)],
      now + (window + 1000)⟩

/-- `SLIDING_WINDOW_SCRIPT`. The reply is the count and whether the request was added. -/
def slidingWindowScript (redis : Redis) (key : String) (now window limit : ℕ) (member : String) :
    Redis × ℕ × ℕ :=
  let redis := zremrangebyscore redis key now window
  let count := (entriesOf redis key).length
  if limit ≤ count then (redis, count, 0)
  else (zadd redis key now window member, count + 1, 1)

/-! ## `check_rate_limit` -/

structure RateLimitOutcome where
  allowed : Bool
  limit : ℕ
  remaining : ℕ
  resetAt : ℕ
deriving DecidableEq

/-- The outcome for the reply of the script; without a reply the request is let in. -/
def checkRateLimit (reply : Option (ℕ × ℕ)) (limit windowMs nowMs : ℕ) : RateLimitOutcome :=
  let resetAt := min (nowMs + min windowMs (2 ^ 63 - 1)) (2 ^ 63 - 1) / 1000
  match reply with
  | none => { allowed := true, limit, remaining := limit - 1, resetAt }
  | some (count, wasAdded) =>
    let allowed := wasAdded = 1
    { allowed, limit, remaining := if allowed then limit - count else 0, resetAt }

/-! ## Runs -/

/-- A request when it comes to the limiter, the member drawn for it, and whether a key that has
expired is gone by then. -/
structure Arrival where
  now : ℕ
  request : Request
  member : String
  lapsed : Bool

section

variable (decodeSub : String → Option String)

/-- `rate_limit_middleware`, with Redis available. -/
def limitRequest (redis : Redis) (a : Arrival) : Redis × RateLimitOutcome :=
  let (limit, window, key) := classifyRequest decodeSub a.request a.now
  let (redis, reply) :=
    slidingWindowScript (expire redis key a.now a.lapsed) key a.now window limit a.member
  (redis, checkRateLimit (some reply) limit window a.now)

/-- The times of the requests let in, in order, and Redis after them. -/
def limitAll (arrivals : List Arrival) : Redis × List ℕ :=
  arrivals.foldl
    (fun (redis, taken) a =>
      let (redis, outcome) := limitRequest decodeSub redis a
      (redis, if outcome.allowed then taken ++ [a.now] else taken))
    (OrdMap.empty, [])

/-! ## One client on one class of paths -/

inductive PathClass where
  | auth
  | orders
  | read
deriving DecidableEq

inductive Client where
  | ip (ip : String)
  | user (uid : String)
deriving DecidableEq

def pathClass (path : String) : PathClass :=
  if startsWith "/api/v1/auth/" path then .auth
  else if startsWith "/api/v1/orders" path then .orders
  else .read

/-- Whom a request is counted for: on the auth paths the address alone. -/
def clientOf (request : Request) : Client :=
  match pathClass request.path, extractUserKey decodeSub request with
  | .auth, _ | _, none => .ip (extractIp request)
  | _, some uid => .user uid

end

def limitOf : PathClass → Client → ℕ
  | .auth, _ => 10
  | .orders, .user _ => 60
  | .read, .user _ => 600
  | _, .ip _ => 30

def windowOf : PathClass → ℕ
  | .auth => 15 * 60 * 1000
  | _ => 60000

/-- The key without the number of the minute. -/
def keyStem : PathClass → Client → String
  | .auth, .ip ip => "rl:auth:" ++ ip
  | .auth, .user uid => "rl:auth:" ++ uid
  | .orders, .ip ip => "rl:orders:ip:" ++ ip ++ ":"
  | .orders, .user uid => "rl:orders:user:" ++ uid ++ ":"
  | .read, .ip ip => "rl:read:ip:" ++ ip ++ ":"
  | .read, .user uid => "rl:read:user:" ++ uid ++ ":"

def keyOf (c : PathClass) (client : Client) (now : ℕ) : String :=
  match c with
  | .auth => keyStem c client
  | _ => keyStem c client ++ toString (windowBucket now 60000)

/-- A request is classified by the class of its path, its client and, for the key, its time. -/
theorem classifyRequest_eq (decodeSub : String → Option String) (request : Request) (now : ℕ) :
    classifyRequest decodeSub request now =
      (limitOf (pathClass request.path) (clientOf decodeSub request),
        windowOf (pathClass request.path),
        keyOf (pathClass request.path) (clientOf decodeSub request) now) := by
  unfold classifyRequest clientOf pathClass
  split_ifs with hauth horders
  · rfl
  · cases extractUserKey decodeSub request <;> rfl
  · cases extractUserKey decodeSub request <;> rfl

/-- On the auth paths the key does not depend on the time. -/
theorem keyOf_auth (client : Client) (s t : ℕ) : keyOf .auth client s = keyOf .auth client t := rfl

/-- Off the auth paths two times share the key if and only if they share the minute. -/
theorem keyOf_eq_iff {c : PathClass} (hc : c ≠ .auth) (client : Client) (s t : ℕ) :
    keyOf c client s = keyOf c client t ↔ s / 60000 = t / 60000 := by
  cases c with
  | auth => exact absurd rfl hc
  | orders | read =>
    simp only [keyOf, String.append_right_inj]
    exact Digits.repr_inj

/-! ## The script keeps what a sliding window needs -/

/-- The scores under a key. -/
def scores (redis : Redis) (key : String) : List ℕ := (entriesOf redis key).map Prod.snd

/-- How many scores are less than a window old. -/
def live (window now : ℕ) (times : List ℕ) : ℕ := times.countP fun t => now < t + window

/-- Redis holds what was let in: of what counts from `since` on, as many scores under a key as
requests. The entries are of the past, with members among those drawn, and do not count any more
when their key expires. -/
structure Tracks (window : ℕ) (key : ℕ → String) (since : ℕ) (drawn : List String)
    (redis : Redis) (taken : List ℕ) : Prop where
  counts : ∀ k now, since ≤ now →
    live window now (scores redis k) = live window now (taken.filter fun t => key t = k)
  past : ∀ k, ∀ entry ∈ entriesOf redis k, entry.1 ∈ drawn ∧ entry.2 ≤ since
  expiry : ∀ k set, redis.find? k = some set →
    ∀ entry ∈ set.entries, entry.2 + window ≤ set.expiresAt

section

variable {window : ℕ} {key : ℕ → String} {since now : ℕ} {drawn : List String} {redis : Redis}
  {taken : List ℕ} {k k' : String}

theorem entriesOf_of_find? {set : SortedSet} (h : redis.find? k = some set) :
    entriesOf redis k = set.entries := by
  simp [entriesOf, h]

theorem entriesOf_erase_self : entriesOf (redis.erase k) k = [] := by
  simp [entriesOf]

theorem entriesOf_erase (h : k' ≠ k) : entriesOf (redis.erase k) k' = entriesOf redis k' := by
  simp [entriesOf, OrdMap.find?_erase, h]

theorem entriesOf_insert_self (set : SortedSet) :
    entriesOf (redis.insert k set) k = set.entries := by
  simp [entriesOf]

theorem entriesOf_insert (h : k' ≠ k) (set : SortedSet) :
    entriesOf (redis.insert k set) k' = entriesOf redis k' := by
  simp [entriesOf, OrdMap.find?_insert, h]

/-- A removal of a key that holds nothing that counts. -/
theorem Tracks.erase (h : Tracks window key since drawn redis taken) (hsince : since ≤ now)
    (hold : ∀ entry ∈ entriesOf redis k, entry.2 + window ≤ now) :
    Tracks window key now drawn (redis.erase k) taken := by
  constructor
  · intro k' now' hnow
    rw [← h.counts k' now' (by omega)]
    -- what was under the key is too old to count, now or later
    by_cases hk : k' = k
    · subst hk
      have hnone : live window now' (scores redis k') = 0 := by
        refine List.countP_eq_zero.mpr fun t ht => ?_
        rcases List.mem_map.mp ht with ⟨entry, hentry, rfl⟩
        have := hold entry hentry
        simp only [decide_eq_true_eq]
        omega
      rw [hnone, scores, entriesOf_erase_self]
      rfl
    · rw [scores, entriesOf_erase hk, scores]
  · intro k' entry hentry
    by_cases hk : k' = k
    · rw [hk, entriesOf_erase_self] at hentry
      cases hentry
    · rw [entriesOf_erase hk] at hentry
      have hpast := h.past k' entry hentry
      exact ⟨hpast.1, hpast.2.trans hsince⟩
  · intro k' set hfind
    rw [OrdMap.find?_erase] at hfind
    split_ifs at hfind
    exact h.expiry k' set hfind

/-- A new set under a key. -/
theorem Tracks.insert (h : Tracks window key now drawn redis taken) {drawn' : List String}
    {taken' : List ℕ} {set : SortedSet} (hdrawn : ∀ m ∈ drawn, m ∈ drawn')
    (hother : ∀ k' ≠ k, (taken'.filter fun t => key t = k') = taken.filter fun t => key t = k')
    (hcounts : ∀ now', now ≤ now' → live window now' (set.entries.map Prod.snd) =
      live window now' (taken'.filter fun t => key t = k))
    (hpast : ∀ entry ∈ set.entries, entry.1 ∈ drawn' ∧ entry.2 ≤ now)
    (hexpiry : ∀ entry ∈ set.entries, entry.2 + window ≤ set.expiresAt) :
    Tracks window key now drawn' (redis.insert k set) taken' := by
  -- other keys are as before; under this one counts what the new set holds
  constructor
  · intro k' now' hnow
    by_cases hk : k' = k
    · subst hk
      rw [scores, entriesOf_insert_self]
      exact hcounts now' hnow
    · rw [scores, entriesOf_insert hk, hother k' hk]
      exact h.counts k' now' hnow
  · intro k' entry hentry
    by_cases hk : k' = k
    · rw [hk, entriesOf_insert_self] at hentry
      exact hpast entry hentry
    · rw [entriesOf_insert hk] at hentry
      have hknown := h.past k' entry hentry
      exact ⟨hdrawn _ hknown.1, hknown.2⟩
  · intro k' set' hfind
    rw [OrdMap.find?_insert] at hfind
    split_ifs at hfind with hk
    · cases hfind
      exact hexpiry
    · exact h.expiry k' set' hfind

/-- What is tracked from a time on is tracked from any later one. -/
theorem Tracks.later (h : Tracks window key since drawn redis taken) (hsince : since ≤ now) :
    Tracks window key now drawn redis taken := by
  constructor
  · intro k now' hnow
    exact h.counts k now' (by omega)
  · intro k entry hentry
    have hpast := h.past k entry hentry
    exact ⟨hpast.1, hpast.2.trans hsince⟩
  · exact h.expiry

/-- A key that is gone held nothing that counts. -/
theorem Tracks.expire (h : Tracks window key since drawn redis taken) (hsince : since ≤ now)
    (k : String) (lapsed : Bool) :
    Tracks window key now drawn (expire redis k now lapsed) taken := by
  unfold RateLimit.expire
  split
  · next set hfind =>
    split_ifs with hgone
    · refine h.erase hsince fun entry hentry => ?_
      rw [entriesOf_of_find? hfind] at hentry
      have := h.expiry k set hfind entry hentry
      omega
    · exact h.later hsince
  · exact h.later hsince

/-- What the script removes counts neither now nor later. -/
theorem entriesOf_zremrangebyscore :
    entriesOf (zremrangebyscore redis k now window) k =
      (entriesOf redis k).filter fun entry => now < entry.2 + window := by
  unfold zremrangebyscore
  split
  · next set hfind =>
    rw [entriesOf_of_find? hfind]
    simp only
    split_ifs with hempty
    · rw [entriesOf_erase_self, List.isEmpty_iff.mp hempty]
    · rw [entriesOf_insert_self]
  · next hfind => simp [entriesOf, hfind]

/-- Dropping what is too old keeps every member that still counts. -/
theorem Tracks.zremrangebyscore (h : Tracks window key now drawn redis taken) :
    Tracks window key now drawn (zremrangebyscore redis k now window) taken := by
  unfold RateLimit.zremrangebyscore
  split
  · next set hfind =>
    have hentries := entriesOf_of_find? hfind
    simp only
    split_ifs with hempty
    · refine h.erase le_rfl fun entry hentry => ?_
      rw [hentries] at hentry
      have hnone := List.filter_eq_nil_iff.mp (List.isEmpty_iff.mp hempty) entry hentry
      simpa using hnone
    · refine h.insert (fun _ hm => hm) (fun _ _ => rfl) ?_ ?_ ?_
      -- only what no longer counts is removed, and later it counts no more than now
      · intro now' hnow
        rw [← h.counts k now' hnow, scores, hentries]
        simp only [live, List.countP_map, List.countP_filter]
        refine List.countP_congr fun entry _ => ?_
        simp only [Function.comp_apply, Bool.and_eq_true, decide_eq_true_eq]
        omega
      · intro entry hentry
        refine h.past k entry ?_
        rw [hentries]
        exact List.mem_of_mem_filter hentry
      · intro entry hentry
        exact h.expiry k set hfind entry (List.mem_of_mem_filter hentry)
  · exact h

/-- After the removal the script counts what counts. -/
theorem Tracks.count (h : Tracks window key now drawn redis taken) :
    (entriesOf (RateLimit.zremrangebyscore redis (key now) now window) (key now)).length =
      recent window key now taken := by
  have hcounts := h.counts (key now) now le_rfl
  simp only [live, scores, List.countP_map, List.countP_filter] at hcounts
  rw [entriesOf_zremrangebyscore, ← List.countP_eq_length_filter, recent]
  have hcomm : (taken.countP fun t => key t = key now ∧ now < t + window) =
      taken.countP fun t => decide (now < t + window) && decide (key t = key now) :=
    List.countP_congr fun t _ => by simp [and_comm]
  rw [hcomm, ← hcounts]
  rfl

/-- A request is added under a member of its own. -/
theorem Tracks.zadd (h : Tracks window key now drawn redis taken) {member : String}
    (hmember : member ∉ drawn) :
    Tracks window key now (member :: drawn) (zadd redis (key now) now window member)
      (taken ++ [now]) := by
  -- a member that is there already would be replaced, and the set would not grow
  have hfresh : (entriesOf redis (key now)).filter (fun entry => entry.1 ≠ member) =
      entriesOf redis (key now) := by
    rw [List.filter_eq_self]
    intro entry hentry
    have hne : entry.1 ≠ member := by
      rintro rfl
      exact hmember (h.past _ entry hentry).1
    simpa using hne
  unfold RateLimit.zadd
  rw [hfresh]
  refine h.insert (fun m hm => List.mem_cons_of_mem _ hm) ?_ ?_ ?_ ?_
  · intro k' hk
    simp [hk.symm]
  · intro now' hnow
    have hcounts := h.counts (key now) now' hnow
    simp only [live, scores] at hcounts
    simp [live, List.countP_append, hcounts]
  · intro entry hentry
    rcases List.mem_append.mp hentry with hentry | hentry
    · have hpast := h.past _ entry hentry
      exact ⟨List.mem_cons_of_mem _ hpast.1, hpast.2⟩
    · rw [List.mem_singleton.mp hentry]
      exact ⟨List.mem_cons_self, le_rfl⟩
  · intro entry hentry
    rcases List.mem_append.mp hentry with hentry | hentry
    · have hpast := (h.past _ entry hentry).2
      simp only
      omega
    · rw [List.mem_singleton.mp hentry]
      simp only
      omega

/-- Drawing one more member changes nothing that is tracked. -/
theorem Tracks.drawn_mono (h : Tracks window key since drawn redis taken) (member : String) :
    Tracks window key since (member :: drawn) redis taken := by
  constructor
  · exact h.counts
  · intro k entry hentry
    have hpast := h.past k entry hentry
    exact ⟨List.mem_cons_of_mem _ hpast.1, hpast.2⟩
  · exact h.expiry

/-- The script lets in what a sliding window lets in. -/
theorem Tracks.slidingWindowScript (h : Tracks window key now drawn redis taken) {member : String}
    (hmember : member ∉ drawn) (limit : ℕ) :
    Tracks window key now (member :: drawn)
        (slidingWindowScript redis (key now) now window limit member).1
        (takeArrival limit window key taken now) ∧
      ((slidingWindowScript redis (key now) now window limit member).2.2 = 1 ↔
        recent window key now taken < limit) := by
  have hcount := h.count
  unfold RateLimit.slidingWindowScript takeArrival
  simp only [hcount]
  by_cases hfull : limit ≤ recent window key now taken
  · have hnot : ¬recent window key now taken < limit := by omega
    simp only [hfull, hnot, if_true, if_false]
    exact ⟨h.zremrangebyscore.drawn_mono member, by simp⟩
  · have hroom : recent window key now taken < limit := by omega
    simp only [hfull, hroom, if_true, if_false]
    exact ⟨h.zremrangebyscore.zadd hmember, by simp⟩

end

/-! ## Runs of the limiter -/

section

variable {decodeSub : String → Option String} {c : PathClass} {client : Client}

/-- The requests are of one client on one class of paths. -/
def OfClient (decodeSub : String → Option String) (c : PathClass) (client : Client)
    (arrivals : List Arrival) : Prop :=
  ∀ a ∈ arrivals, pathClass a.request.path = c ∧ clientOf decodeSub a.request = client

/-- One request. -/
theorem Tracks.limitRequest {since : ℕ} {drawn : List String} {redis : Redis} {taken : List ℕ}
    (h : Tracks (windowOf c) (keyOf c client) since drawn redis taken) {a : Arrival}
    (hsince : since ≤ a.now) (hmember : a.member ∉ drawn)
    (hclient : pathClass a.request.path = c ∧ clientOf decodeSub a.request = client) :
    Tracks (windowOf c) (keyOf c client) a.now (a.member :: drawn)
        (limitRequest decodeSub redis a).1
        (takeArrival (limitOf c client) (windowOf c) (keyOf c client) taken a.now) ∧
      ((limitRequest decodeSub redis a).2.allowed = true ↔
        recent (windowOf c) (keyOf c client) a.now taken < limitOf c client) := by
  have hscript := (h.expire hsince (keyOf c client a.now) a.lapsed).slidingWindowScript hmember
    (limitOf c client)
  unfold RateLimit.limitRequest
  rw [classifyRequest_eq, hclient.1, hclient.2]
  refine ⟨hscript.1, ?_⟩
  rw [← hscript.2]
  simp [checkRateLimit]

/-- The limiter lets in what a sliding window lets in that sees only what shares its key. -/
theorem limitAll_eq_admitted {arrivals : List Arrival}
    (hsorted : (arrivals.map Arrival.now).Pairwise (· ≤ ·))
    (hmembers : (arrivals.map Arrival.member).Nodup)
    (hclient : OfClient decodeSub c client arrivals) :
    (limitAll decodeSub arrivals).2 =
      admitted (limitOf c client) (windowOf c) (keyOf c client) (arrivals.map Arrival.now) := by
  -- by induction from the last arrival: Redis tracks what was let in before it
  suffices h : ∀ since, (∀ a ∈ arrivals, a.now ≤ since) →
      Tracks (windowOf c) (keyOf c client) since (arrivals.map Arrival.member).reverse
          (limitAll decodeSub arrivals).1 (limitAll decodeSub arrivals).2 ∧
        (limitAll decodeSub arrivals).2 =
          admitted (limitOf c client) (windowOf c) (keyOf c client)
            (arrivals.map Arrival.now) from
    (h (arrivals.map Arrival.now).sum fun a ha =>
      List.le_sum_of_mem (List.mem_map.mpr ⟨a, ha, rfl⟩)).2
  induction arrivals using List.reverseRecOn with
  | nil =>
    intro since _
    refine ⟨?_, rfl⟩
    constructor
    · intro k now _
      rfl
    · intro k entry hentry
      cases hentry
    · intro k set hfind
      cases hfind
  | append_singleton arrivals a ih =>
    intro since hsince
    rw [List.map_append, List.pairwise_append] at hsorted
    rw [List.map_append, List.nodup_append] at hmembers
    have hbefore : ∀ b ∈ arrivals, b.now ≤ a.now := fun b hb =>
      hsorted.2.2 _ (List.mem_map_of_mem hb) _ (by simp)
    rcases ih hsorted.1 hmembers.1
      (fun b hb => hclient b (List.mem_append_left _ hb)) a.now hbefore with ⟨htracks, htaken⟩
    have hfresh : a.member ∉ (arrivals.map Arrival.member).reverse := by
      intro hmem
      exact hmembers.2.2 _ (List.mem_reverse.mp hmem) a.member (by simp) rfl
    rcases htracks.limitRequest le_rfl hfresh (hclient a (by simp)) with ⟨hstep, hallowed⟩
    have hlast : limitAll decodeSub (arrivals ++ [a]) =
        ((limitRequest decodeSub (limitAll decodeSub arrivals).1 a).1,
          takeArrival (limitOf c client) (windowOf c) (keyOf c client)
            (limitAll decodeSub arrivals).2 a.now) := by
      simp only [limitAll, List.foldl_append, List.foldl_cons, List.foldl_nil] at hallowed ⊢
      rw [takeArrival]
      simp only [hallowed]
    rw [hlast, List.map_append, List.map_append, List.reverse_append]
    refine ⟨hstep.later (hsince a (by simp)), ?_⟩
    rw [htaken, List.map_singleton, admitted_concat]

/-- In every window of the class at most its limit of requests are let in, if and only if the
class is that of the auth paths, or the first requests of a minute, up to the limit, are never
more than the limit together with those of the minute before that came less than a window
earlier. -/
theorem slidingWindow_iff {arrivals : List Arrival}
    (hsorted : (arrivals.map Arrival.now).Pairwise (· ≤ ·))
    (hmembers : (arrivals.map Arrival.member).Nodup)
    (hclient : OfClient decodeSub c client arrivals) :
    (∀ t, count t (t + windowOf c) (limitAll decodeSub arrivals).2 ≤ limitOf c client) ↔
      c = .auth ∨ Spread (limitOf c client) (windowOf c) (arrivals.map Arrival.now) := by
  rw [limitAll_eq_admitted hsorted hmembers hclient]
  by_cases hc : c = .auth
  · subst hc
    simp only [true_or, iff_true]
    exact fun t => count_admitted_le hsorted (keyOf_auth client) t
  · have hwindow : windowOf c = 60000 := by
      cases c with
      | auth => exact absurd rfl hc
      | orders | read => rfl
    rw [hwindow, admitted_congr_key (keyOf_eq_iff hc client), stretch_iff (by decide) hsorted]
    simp [hc]

/-- Sixty calls without a token, half of them just before a minute ends and half just after. -/
def burst : List Arrival :=
  (List.range 60).map fun i =>
    { now := if i < 30 then 59999 else 60000
      request := ⟨"/api/v1/orders", some "203.0.113.7", none⟩
      member := i.repr
      lapsed := false }

theorem ofClient_burst : OfClient (fun _ => none) .orders (.ip "203.0.113.7") burst := by
  intro a ha
  have hrequest : a.request = ⟨"/api/v1/orders", some "203.0.113.7", none⟩ := by
    rcases List.mem_map.mp ha with ⟨i, _, rfl⟩
    rfl
  rw [hrequest]
  decide +kernel

theorem members_burst : (burst.map Arrival.member).Nodup := by
  rw [burst, List.map_map]
  exact List.nodup_range.map fun m n h => Digits.repr_inj.mp h

theorem sorted_burst : (burst.map Arrival.now).Pairwise (· ≤ ·) := by decide +kernel

theorem slidingWindow_iff_burst :
    (∀ t, count t (t + windowOf .orders) (limitAll (fun _ => none) burst).2 ≤
        limitOf .orders (.ip "203.0.113.7")) ↔
      PathClass.orders = .auth ∨
        Spread (limitOf .orders (.ip "203.0.113.7")) (windowOf .orders)
          (burst.map Arrival.now) :=
  slidingWindow_iff sorted_burst members_burst ofClient_burst

/-- All sixty are let in within a minute, twice the limit. -/
theorem burst_let_in :
    OfClient (fun _ => none) .orders (.ip "203.0.113.7") burst ∧
      limitOf .orders (.ip "203.0.113.7") = 30 ∧
      count 59999 (59999 + windowOf .orders) (limitAll (fun _ => none) burst).2 = 60 := by
  refine ⟨ofClient_burst, rfl, ?_⟩
  rw [limitAll_eq_admitted sorted_burst members_burst ofClient_burst,
    admitted_congr_key (keyOf_eq_iff (by decide) _)]
  decide +kernel

end

end CryptoCex.Api.RateLimit
