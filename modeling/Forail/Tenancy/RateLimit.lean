import Forail.Base.Dict
import Forail.Base.TokenBucket
import Mathlib.Algebra.Order.Archimedean.Basic
import Mathlib.Algebra.Order.Floor.Ring
import Mathlib.Data.Rat.Floor

/-! The rate limit of a tenant: the script that runs on the bucket of an organization, and
the middleware that asks it. Its numbers are exact here. The script overwrites the time of
the last refill also where the clock of a node goes back, so that the time until the next
later reading is credited again. -/

namespace Forail.RateLimit

open TokenBucket

/-- The hash of a bucket. -/
structure Stored where
  tokens : ℚ
  lastRefill : ℚ

section Script
variable (maxTokens refillRate : ℚ)

/-- `TOKEN_BUCKET_LUA`; a bucket that is not there is full. -/
def tokenBucketLua (bucket : Option Stored) (now requested : ℚ) : Stored × ℕ × ℤ :=
  let (tokens, lastRefill) :=
    match bucket with
    | some b => (b.tokens, b.lastRefill)
    | none => (maxTokens, now)
  let elapsed := max 0 (now - lastRefill)
  let tokens := min maxTokens (tokens + elapsed * refillRate)
  if requested ≤ tokens then (⟨tokens - requested, now⟩, 1, ⌊tokens - requested⌋)
  else (⟨tokens, now⟩, 0, ⌊tokens⌋)

/-- The answers to requests at some timestamps. -/
def answers (bucket : Option Stored) : List ℚ → List ℕ
  | [] => []
  | now :: ts =>
    let result := tokenBucketLua maxTokens refillRate bucket now 1
    result.2.1 :: answers (some result.1) ts

/-- The bucket after them. -/
def stored (bucket : Option Stored) (ts : List ℚ) : Option Stored :=
  ts.foldl (fun bucket now => some (tokenBucketLua maxTokens refillRate bucket now 1).1) bucket

/-- The seconds after which an idle bucket expires. -/
def expiry : ℤ := ⌈maxTokens / refillRate⌉ + 10

end Script

/-- The limits that are not positive are none; `int` of an integer is itself. -/
def computeTokenBucketParams (rateLimit : Option ℤ) (burstMultiplier : ℤ) : ℤ × ℤ :=
  match rateLimit with
  | none => (0, 0)
  | some rate => if rate ≤ 0 then (0, 0) else (rate * burstMultiplier, rate)

section Middleware

structure Settings where
  tenancyEnabled : Bool
  tenancyRateLimitingEnabled : Bool
  tenancyDefaultApiRateLimit : ℤ

structure User where
  isAuthenticated : Bool
  isSuperuser : Bool

structure Organization where
  pk : ℕ
  tenantApiRateLimit : Option ℤ

structure Request where
  user : Option User
  tenantOrg : Option Organization

inductive Response
  | passed
  | tooManyRequests (retryAfter : ℤ)
  deriving DecidableEq

/-- `round` of Python: halves go to the even neighbour. -/
def roundHalfEven (q : ℚ) : ℤ :=
  let f := ⌊q⌋
  if q - f < 1 / 2 then f
  else if 1 / 2 < q - f then f + 1
  else if f % 2 = 0 then f else f + 1

/-- The limit that applies to a request, where it is not let through before. -/
def rateLimit (settings : Settings) (request : Request) : Option (Organization × ℤ) := do
  let user ← request.user
  if settings.tenancyEnabled && settings.tenancyRateLimitingEnabled && user.isAuthenticated &&
      !user.isSuperuser then
    let org ← request.tenantOrg
    let own := org.tenantApiRateLimit.getD 0
    let limit := if own ≠ 0 then own else settings.tenancyDefaultApiRateLimit
    if limit ≠ 0 then some (org, limit) else none
  else none

/-- `__call__` on the buckets of the organizations; there are none where Redis fails. -/
def call (settings : Settings) (request : Request) (redis : Option (Dict ℕ Stored)) (now : ℚ) :
    Response × Option (Dict ℕ Stored) :=
  match rateLimit settings request, redis with
  | some (org, limit), some buckets =>
    let (maxTokens, refillRate) := computeTokenBucketParams (some limit) 2
    if maxTokens ≤ 0 then (.passed, redis)
    else
      let (bucket, allowed, _) :=
        tokenBucketLua maxTokens refillRate (buckets.get? org.pk) now 1
      let redis' := some (buckets.set org.pk bucket)
      if allowed = 0 then (.tooManyRequests (max 1 (roundHalfEven (1 / refillRate))), redis')
      else (.passed, redis')
  | _, _ => (.passed, redis)

end Middleware

/-! ### The script as a token bucket -/

def Stored.toBucket (b : Stored) : Bucket ℚ := ⟨b.tokens, b.lastRefill⟩

/-- The bucket that the script starts from. -/
def opened (maxTokens : ℚ) (bucket : Option Stored) (now : ℚ) : Bucket ℚ :=
  match bucket with
  | some b => b.toBucket
  | none => ⟨maxTokens, now⟩

/-- The stored count is in range. -/
def InRange (maxTokens : ℚ) (bucket : Option Stored) : Prop :=
  ∀ b ∈ bucket, 0 ≤ b.tokens ∧ b.tokens ≤ maxTokens

section Bounds
variable {maxTokens refillRate : ℚ}

theorem tokenBucketLua_eq (bucket : Option Stored) (now : ℚ) :
    let tokens := (opened maxTokens bucket now).refill maxTokens refillRate now
    tokenBucketLua maxTokens refillRate bucket now 1 =
      if 1 ≤ tokens then (⟨tokens - 1, now⟩, 1, ⌊tokens - 1⌋) else (⟨tokens, now⟩, 0, ⌊tokens⌋) := by
  cases bucket <;> rfl

theorem toBucket_tokenBucketLua (bucket : Option Stored) (now : ℚ) :
    (tokenBucketLua maxTokens refillRate bucket now 1).1.toBucket =
      (opened maxTokens bucket now).take maxTokens refillRate now := by
  rw [tokenBucketLua_eq]
  by_cases ht : 1 ≤ (opened maxTokens bucket now).refill maxTokens refillRate now
  · rw [if_pos ht, Bucket.take, Bucket.taken, if_pos (decide_eq_true ht)]
    rfl
  · rw [if_neg ht, Bucket.take, Bucket.taken, if_neg (by simpa using ht)]
    rfl

theorem allowed_tokenBucketLua (bucket : Option Stored) (now : ℚ) :
    (tokenBucketLua maxTokens refillRate bucket now 1).2.1 =
      if (opened maxTokens bucket now).taken maxTokens refillRate now then 1 else 0 := by
  rw [tokenBucketLua_eq]
  by_cases ht : 1 ≤ (opened maxTokens bucket now).refill maxTokens refillRate now
  · rw [if_pos ht, Bucket.taken, if_pos (decide_eq_true ht)]
  · rw [if_neg ht, Bucket.taken, if_neg (by simpa using ht)]

theorem sum_answers_some (b : Stored) (ts : List ℚ) :
    (answers maxTokens refillRate (some b) ts).sum =
      b.toBucket.count maxTokens refillRate ts := by
  induction ts generalizing b with
  | nil => rfl
  | cons now ts ih =>
    rw [answers, List.sum_cons, ih, toBucket_tokenBucketLua, allowed_tokenBucketLua]
    rfl

/-- The requests that are allowed are the tokens taken. -/
theorem sum_answers (bucket : Option Stored) (t : ℚ) (ts : List ℚ) :
    (answers maxTokens refillRate bucket (t :: ts)).sum =
      (opened maxTokens bucket t).count maxTokens refillRate (t :: ts) := by
  rw [answers, List.sum_cons, sum_answers_some, toBucket_tokenBucketLua, allowed_tokenBucketLua]
  rfl

theorem InRange.bounded {bucket : Option Stored} (h : InRange maxTokens bucket)
    (hB : 0 ≤ maxTokens) (now : ℚ) : (opened maxTokens bucket now).Bounded maxTokens := by
  cases bucket with
  | none => exact ⟨hB, le_rfl⟩
  | some b => exact ⟨(h b rfl).1, (h b rfl).2⟩

theorem InRange.stored {bucket : Option Stored} (h : InRange maxTokens bucket)
    (hB : 0 ≤ maxTokens) (hr : 0 ≤ refillRate) (ts : List ℚ) :
    InRange maxTokens (stored maxTokens refillRate bucket ts) := by
  induction ts generalizing bucket with
  | nil => exact h
  | cons now ts ih =>
    refine ih fun b hb => ?_
    obtain rfl := Option.some.inj hb
    have hbounded := (h.bounded hB now).take hr now
    rw [← toBucket_tokenBucketLua] at hbounded
    exact ⟨hbounded.nonneg, hbounded.le⟩

end Bounds

/-! ### The bound -/

/-- The largest of some timestamps less the smallest. -/
def span (t : ℚ) (ts : List ℚ) : ℚ := ts.foldr max t - ts.foldr min t

/-- The time by which the clock goes forward, each time up to what fills the bucket. -/
def creditedTime (fillTime t : ℚ) (ts : List ℚ) : ℚ := credit fillTime 1 t ts

section Span
variable {maxTokens refillRate : ℚ}

theorem credit_eq (hr : 0 < refillRate) (t : ℚ) (ts : List ℚ) :
    credit maxTokens refillRate t ts =
      creditedTime (maxTokens / refillRate) t ts * refillRate := by
  rw [creditedTime, ← credit_mul hr.le, div_mul_cancel₀ _ hr.ne']

theorem allowed_le (hB : 0 ≤ maxTokens) (hr : 0 < refillRate) {bucket : Option Stored}
    (hb : InRange maxTokens bucket) {t : ℚ} {ts : List ℚ}
    (hc : creditedTime (maxTokens / refillRate) t ts ≤ span t ts) :
    ((answers maxTokens refillRate bucket (t :: ts)).sum : ℚ) ≤
      maxTokens + refillRate * span t ts := by
  have hcount := (hb.bounded hB t).count_le hr.le t ts
  rw [sum_answers]
  rw [credit_eq hr, mul_comm] at hcount
  exact hcount.trans (by gcongr)

theorem le_foldr_max {t x : ℚ} {ts : List ℚ} (h : x ∈ t :: ts) : x ≤ ts.foldr max t := by
  induction ts with
  | nil => exact (List.mem_singleton.mp h).le
  | cons t' ts ih =>
    rw [List.foldr_cons]
    rcases List.mem_cons.mp h with rfl | h
    · exact le_max_of_le_right (ih List.mem_cons_self)
    · rcases List.mem_cons.mp h with rfl | h
      · exact le_max_left _ _
      · exact le_max_of_le_right (ih (List.mem_cons_of_mem t h))

theorem foldr_min_le {t x : ℚ} {ts : List ℚ} (h : x ∈ t :: ts) : ts.foldr min t ≤ x := by
  induction ts with
  | nil => exact (List.mem_singleton.mp h).ge
  | cons t' ts ih =>
    rw [List.foldr_cons]
    rcases List.mem_cons.mp h with rfl | h
    · exact min_le_of_right_le (ih List.mem_cons_self)
    · rcases List.mem_cons.mp h with rfl | h
      · exact min_le_left _ _
      · exact min_le_of_right_le (ih (List.mem_cons_of_mem t h))

/-- Timestamps that do not decrease are within the bound. -/
theorem creditedTime_le_of_sorted {fillTime t : ℚ} {ts : List ℚ} (h : (t :: ts).Pairwise (· ≤ ·)) :
    creditedTime fillTime t ts ≤ span t ts := by
  have hlast : ts.getLastD t ∈ t :: ts := List.getLastD_mem_cons
  have hcredit : creditedTime fillTime t ts ≤ ts.getLastD t - t := credit_le_of_sorted h
  have hmax := le_foldr_max hlast
  have hmin := foldr_min_le (List.mem_cons_self (a := t) (l := ts))
  unfold span
  linarith

end Span

section Limits

/-- The parameters of a limit, as numbers of the script. -/
def limitParams (limit : ℤ) : ℚ × ℚ :=
  let (maxTokens, refillRate) := computeTokenBucketParams (some limit) 2
  (maxTokens, refillRate)

theorem limitParams_eq {limit : ℤ} (h : 0 < limit) : limitParams limit = (2 * (limit : ℚ), (limit : ℚ)) := by
  simp [limitParams, computeTokenBucketParams, not_le.mpr h, mul_comm]

/-- Some readings of the clocks are within the bound for every limit, and any number of
requests at each of them, exactly if they do not credit more time than they span. -/
theorem allowed_le_iff (t : ℚ) (ts : List ℚ) :
    (∀ limit > 0, ∀ m, ((answers (limitParams limit).1 (limitParams limit).2 none
      (repeated m (t :: ts))).sum : ℚ) ≤ (limitParams limit).1 + (limitParams limit).2 * span t ts) ↔
    creditedTime 2 t ts ≤ span t ts := by
  have hsum (B r : ℚ) (m : ℕ) :
      (answers B r none (repeated (m + 1) (t :: ts))).sum =
        (⟨B, t⟩ : Bucket ℚ).count B r (repeated (m + 1) (t :: ts)) :=
    sum_answers none t (List.replicate m t ++ repeated (m + 1) ts)
  constructor
  · intro h
    by_contra hlt
    rw [not_le, ← sub_pos] at hlt
    -- a limit at which the excess is more than what the last tokens of each reading make up
    obtain ⟨n, hn⟩ := exists_nat_gt ((ts.length + 1) / (creditedTime 2 t ts - span t ts))
    have hpos : (0 : ℚ) < n := lt_of_le_of_lt (by positivity) hn
    rw [div_lt_iff₀ hlt] at hn
    have hbound := h n (by exact_mod_cast hpos) (2 * n + 1)
    have hfull : (⟨2 * n, t⟩ : Bucket ℚ).Bounded (2 * (n : ℚ)) := ⟨by positivity, le_rfl⟩
    have hcount := hfull.le_count hpos.le (m := 2 * n + 1) (by push_cast; linarith) t ts
    have hfill : (2 * n : ℚ) / n = 2 := mul_div_cancel_right₀ 2 hpos.ne'
    rw [Bucket.refill_same _ t le_rfl, credit_eq hpos, hfill, ← hsum] at hcount
    rw [limitParams_eq (by exact_mod_cast hpos)] at hbound
    simp only [Int.cast_natCast] at hbound
    linarith
  · intro h limit hlimit m
    have hr : (0 : ℚ) < limit := by exact_mod_cast hlimit
    have hfull : (⟨2 * limit, t⟩ : Bucket ℚ).Bounded (2 * (limit : ℚ)) := ⟨by positivity, le_rfl⟩
    have hfill : (2 * limit : ℚ) / limit = 2 := mul_div_cancel_right₀ 2 hr.ne'
    rw [limitParams_eq hlimit]
    cases m with
    | zero =>
      have hspan : 0 ≤ span t ts := (credit_nonneg (by norm_num) one_pos.le t ts).trans h
      have hnone : repeated 0 (t :: ts) = [] := by simp [repeated]
      rw [hnone, answers, List.sum_nil, Nat.cast_zero]
      positivity
    | succ m =>
      have hcount := hfull.count_le hr.le t (List.replicate m t ++ repeated (m + 1) ts)
      rw [credit_replicate hfull.nonneg, credit_repeated hfull.nonneg, credit_eq hr, hfill] at hcount
      rw [hsum]
      have hscaled : creditedTime 2 t ts * limit ≤ limit * span t ts := by
        rw [mul_comm]
        exact mul_le_mul_of_nonneg_left h hr.le
      exact hcount.trans (add_le_add_right hscaled _)

end Limits

/-! ### Expiry -/

/-- A bucket with the time of the server at which it expires. -/
structure Key where
  bucket : Stored
  expiresAt : ℚ

/-- An execution of the script, with the time of the server and the timestamp of the node. -/
structure Execution where
  serverTime : ℚ
  now : ℚ

section Expiry
variable (maxTokens refillRate : ℚ)

def evalsha (key : Option Key) (e : Execution) : Key × ℕ :=
  let live := key.filter fun k => e.serverTime < k.expiresAt
  let result := tokenBucketLua maxTokens refillRate (live.map Key.bucket) e.now 1
  (⟨result.1, e.serverTime + expiry maxTokens refillRate⟩, result.2.1)

def answersExpiring (key : Option Key) : List Execution → List ℕ
  | [] => []
  | e :: es =>
    let result := evalsha maxTokens refillRate key e
    result.2 :: answersExpiring (some result.1) es

/-- The timestamps do not decrease, and fall back behind the server by ten seconds at most
between two executions. -/
def Steady : List Execution → Prop :=
  List.IsChain fun e e' =>
    e.now ≤ e'.now ∧ e'.serverTime - e.serverTime ≤ e'.now - e.now + 10

variable {maxTokens refillRate}

theorem lastRefill_tokenBucketLua (bucket : Option Stored) (now : ℚ) :
    (tokenBucketLua maxTokens refillRate bucket now 1).1.lastRefill = now := by
  rw [tokenBucketLua_eq]
  split_ifs <;> rfl

/-- An idle bucket that has expired would be full. -/
theorem refill_of_expired (hr : 0 < refillRate) {b : Stored} (hb : 0 ≤ b.tokens)
    {now : ℚ} (h : maxTokens / refillRate ≤ now - b.lastRefill) :
    b.toBucket.refill maxTokens refillRate now = maxTokens := by
  apply min_eq_left
  have hfill : maxTokens ≤ (now - b.lastRefill) * refillRate := (div_le_iff₀ hr).mp h
  have hmax : (now - b.lastRefill) * refillRate ≤ max 0 (now - b.lastRefill) * refillRate := by
    gcongr
    exact le_max_right _ _
  dsimp only [Stored.toBucket]
  linarith

/-- The script does the same where the bucket has expired. -/
theorem evalsha_eq (hr : 0 < refillRate) {e e' : Execution} {b : Stored}
    (hb : InRange maxTokens (some b)) (hlast : b.lastRefill = e.now)
    (hgap : e'.serverTime - e.serverTime ≤ e'.now - e.now + 10) :
    evalsha maxTokens refillRate (some ⟨b, e.serverTime + expiry maxTokens refillRate⟩) e' =
      (⟨(tokenBucketLua maxTokens refillRate (some b) e'.now 1).1,
        e'.serverTime + expiry maxTokens refillRate⟩,
        (tokenBucketLua maxTokens refillRate (some b) e'.now 1).2.1) := by
  unfold evalsha
  by_cases hlive : e'.serverTime < e.serverTime + expiry maxTokens refillRate
  · simp [Option.filter, hlive]
  · have hidle : maxTokens / refillRate ≤ e'.now - b.lastRefill := by
      have hceil := Int.le_ceil (maxTokens / refillRate)
      rw [hlast]
      simp only [expiry, Int.cast_add, Int.cast_ofNat] at hlive
      linarith
    have hsame : tokenBucketLua maxTokens refillRate none e'.now 1 =
        tokenBucketLua maxTokens refillRate (some b) e'.now 1 := by
      rw [tokenBucketLua_eq, tokenBucketLua_eq]
      simp only [opened, refill_of_expired hr (hb b rfl).1 hidle, Bucket.refill_same _ _ le_rfl]
    simp [Option.filter, hlive, hsame]

theorem answersExpiring_some (hB : 0 ≤ maxTokens) (hr : 0 < refillRate) {e : Execution}
    {es : List Execution} {b : Stored} (hb : InRange maxTokens (some b))
    (hlast : b.lastRefill = e.now) (hs : Steady (e :: es)) :
    answersExpiring maxTokens refillRate (some ⟨b, e.serverTime + expiry maxTokens refillRate⟩) es =
      answers maxTokens refillRate (some b) (es.map Execution.now) := by
  induction es generalizing e b with
  | nil => rfl
  | cons e' es ih =>
    obtain ⟨⟨-, hgap⟩, hs⟩ := List.isChain_cons_cons.mp hs
    have hrest := ih (hb.stored hB hr.le [e'.now]) (lastRefill_tokenBucketLua (some b) e'.now) hs
    rw [answersExpiring, evalsha_eq hr hb hlast hgap]
    exact congrArg _ hrest

/-- The expiry of idle buckets changes no answer. -/
theorem answersExpiring_eq (hB : 0 ≤ maxTokens) (hr : 0 < refillRate) {es : List Execution}
    (hs : Steady es) : answersExpiring maxTokens refillRate none es =
      answers maxTokens refillRate none (es.map Execution.now) := by
  cases es with
  | nil => rfl
  | cons e es =>
    have hnone : InRange maxTokens none := nofun
    have hrange := hnone.stored hB hr.le [e.now]
    have hrest := answersExpiring_some hB hr hrange (lastRefill_tokenBucketLua none e.now) hs
    exact congrArg _ hrest

/-- Where the nodes and the server have one clock that does not go back, executions are
steady. -/
theorem steady_of_sorted {ts : List ℚ} (h : ts.IsChain (· ≤ ·)) :
    Steady (ts.map fun t => ⟨t, t⟩) := by
  rw [Steady, List.isChain_map]
  exact h.imp fun a b hab => ⟨hab, by linarith⟩

end Expiry

/-- The requests that are allowed are within the bound for some readings of the clocks, every
limit and any number of requests at each reading exactly if the readings do not credit more
time than they span, and for every bucket where they do not; the stored count stays in
range, and the expiry of idle buckets changes no answer. -/
theorem rate_limit {maxTokens refillRate : ℚ} (hB : 0 ≤ maxTokens) (hr : 0 < refillRate) :
    (∀ t ts, (∀ limit > 0, ∀ m, ((answers (limitParams limit).1 (limitParams limit).2 none
        (repeated m (t :: ts))).sum : ℚ) ≤
          (limitParams limit).1 + (limitParams limit).2 * span t ts) ↔
      creditedTime 2 t ts ≤ span t ts) ∧
    (∀ bucket, InRange maxTokens bucket → ∀ t ts,
      creditedTime (maxTokens / refillRate) t ts ≤ span t ts →
      ((answers maxTokens refillRate bucket (t :: ts)).sum : ℚ) ≤
        maxTokens + refillRate * span t ts) ∧
    (∀ bucket, InRange maxTokens bucket → ∀ ts,
      InRange maxTokens (stored maxTokens refillRate bucket ts)) ∧
    ∀ es, Steady es → answersExpiring maxTokens refillRate none es =
      answers maxTokens refillRate none (es.map Execution.now) :=
  ⟨allowed_le_iff, fun _ hb _ _ hc => allowed_le hB hr hb hc, fun _ hb ts => hb.stored hB hr.le ts,
    fun _ hs => answersExpiring_eq hB hr hs⟩

/-! ### Two clocks -/

/-- One second of two clocks that take turns is credited three times. -/
theorem rate_limit_twoClocks :
    (answers (limitParams 1).1 (limitParams 1).2 none [0, 0, 1, 0, 1, 0, 1]).sum = 5 ∧
      (limitParams 1).1 + (limitParams 1).2 * span 0 [0, 1, 0, 1, 0, 1] = 3 := by
  decide +kernel

theorem rate_limit_one :
    ((answers 2 1 none [0, 0, 0, 1, 1]).sum : ℚ) ≤ 2 + 1 * span 0 [0, 0, 1, 1] := by
  have h := (@rate_limit 2 1 (by norm_num) one_pos).2.1 none nofun 0 [0, 0, 1, 1]
  exact h (by decide +kernel)

/-! ### The middleware -/

/-- Every limit has clients try again after a second. -/
theorem retryAfter_eq {limit : ℤ} (h : 0 < limit) :
    max 1 (roundHalfEven (1 / limit)) = 1 := by
  apply max_eq_left
  obtain rfl | hl : limit = 1 ∨ 2 ≤ limit := by omega
  · decide +kernel
  · have hq : (2 : ℚ) ≤ limit := by exact_mod_cast hl
    have hhalf : 1 / (limit : ℚ) ≤ 1 / 2 := one_div_le_one_div_of_le two_pos hq
    have hpos : 0 < 1 / (limit : ℚ) := by positivity
    have hfloor : ⌊1 / (limit : ℚ)⌋ = 0 := Int.floor_eq_zero_iff.mpr ⟨hpos.le, by linarith⟩
    unfold roundHalfEven
    dsimp only
    rw [hfloor, Int.cast_zero, sub_zero, if_neg (not_lt.mpr hhalf)]
    split_ifs <;> decide

/-- A request under a limit is let through exactly if the script allows it. -/
theorem call_eq {settings : Settings} {request : Request} {org : Organization} {limit : ℤ}
    (h : rateLimit settings request = some (org, limit)) (hl : 0 < limit)
    (buckets : Dict ℕ Stored) (now : ℚ) :
    (call settings request (some buckets) now).1 =
      if (tokenBucketLua (limitParams limit).1 (limitParams limit).2 (buckets.get? org.pk) now 1).2.1
        = 0 then .tooManyRequests 1 else .passed := by
  have hparams : computeTokenBucketParams (some limit) 2 = (limit * 2, limit) :=
    if_neg (not_le.mpr hl)
  unfold call
  simp only [h, limitParams, hparams]
  rw [if_neg (by omega), retryAfter_eq hl]
  split_ifs <;> rfl

end Forail.RateLimit
