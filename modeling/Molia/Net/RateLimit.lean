import Molia.General.TokenBucket
import Molia.Net.Admission

/-!
# What the buckets of addresses and networks let through

Before anything is done for a sender that has not shown who it is, `allow_pre_handshake` takes one
token from the bucket of its address, and then one from the bucket of its network if the address is
an IPv4 address. Buckets are made full, at the first call that needs them. Such a bucket might as
well have been there since the beginning (`levelOf`): with this, each of the two maps is a family of
token buckets in the sense of the library, one for every key.

A call that the address is refused for does not reach the bucket of the network. Nevertheless the
calls of a network are all let through exactly if each address keeps to its own limit and the
network to its own (`served_iff`), whatever the rest of the world does. This is exact for token
counts that are exact rationals, as they are here; the source counts in doubles, and rounding can
decide a call at the very edge of a limit the other way.
-/

namespace Molia

open TokenBuckets

/-- A time in seconds. -/
def seconds (now : ℕ) : ℚ := (now : ℚ) / (second : ℚ)

theorem seconds_nonneg (now : ℕ) : 0 ≤ seconds now :=
  div_nonneg (Nat.cast_nonneg _) (Nat.cast_nonneg _)

theorem seconds_le {t now : ℕ} (h : t ≤ now) : seconds t ≤ seconds now :=
  div_le_div_of_nonneg_right (Nat.cast_le.mpr h) (Nat.cast_nonneg _)

section Limits

variable {E E' : Type*} {cap rate : ℚ} {hcap : 0 ≤ cap} {hrate : 0 ≤ rate}

/-- One token for each call. -/
def callLimit (cap rate : ℚ) (hcap : 0 ≤ cap) (hrate : 0 ≤ rate) (now : E → ℕ) : Limit E ℚ where
  cap := cap
  rate := rate
  time e := seconds (now e)
  cost _ := 1
  cap_nonneg := hcap
  rate_nonneg := hrate
  cost_nonneg _ := zero_le_one

theorem callLimit_congr {now : E → ℕ} {now' : E' → ℕ} {e : E} {e' : E'} (h : now e = now' e')
    (b : Level ℚ) :
    ((callLimit cap rate hcap hrate now).Grants b e ↔
        (callLimit cap rate hcap hrate now').Grants b e') ∧
      (callLimit cap rate hcap hrate now).take b e
        = (callLimit cap rate hcap hrate now').take b e' := by
  have htime : (callLimit cap rate hcap hrate now).time e
      = (callLimit cap rate hcap hrate now').time e' := congrArg seconds h
  have hgrants : (callLimit cap rate hcap hrate now).Grants b e ↔
      (callLimit cap rate hcap hrate now').Grants b e' := by
    rw [Limit.Grants, htime]
    rfl
  refine ⟨hgrants, ?_⟩
  rw [Limit.take, Limit.take, Limit.taken, Limit.taken, htime]
  simp only [hgrants]
  rfl

def ipLimit (now : E → ℕ) : Limit E ℚ := callLimit 20 10 (by norm_num) (by norm_num) now

def prefixLimit (now : E → ℕ) : Limit E ℚ := callLimit 80 40 (by norm_num) (by norm_num) now

variable {now : E → ℕ} {now' : E' → ℕ} {e : E} {e' : E'}

theorem ipLimit_congr (h : now e = now' e') (b : Level ℚ) :
    ((ipLimit now).Grants b e ↔ (ipLimit now').Grants b e') ∧
      (ipLimit now).take b e = (ipLimit now').take b e' := callLimit_congr h b

theorem prefixLimit_congr (h : now e = now' e') (b : Level ℚ) :
    ((prefixLimit now).Grants b e ↔ (prefixLimit now').Grants b e') ∧
      (prefixLimit now).take b e = (prefixLimit now').take b e' := callLimit_congr h b

end Limits

namespace TokenBucket

def level (b : TokenBucket) : Level ℚ := ⟨b.tokens, seconds b.last⟩

/-- The bucket was made for the limit, and was last asked by time `t`. -/
structure Fits {E : Type*} (l : Limit E ℚ) (t : ℕ) (b : TokenBucket) : Prop where
  cap_eq : b.cap = l.cap
  rate_eq : b.ratePerS = l.rate
  last_le : b.last ≤ t
  tokens_nonneg : 0 ≤ b.tokens

variable {E : Type*} {l : Limit E ℚ} {b : TokenBucket} {now : ℕ} {e : E}

/-- With the clock going forward, a bucket is one of the library. -/
theorem take_spec (hb : b.Fits l now) (htime : l.time e = seconds now) (hcost : l.cost e = 1) :
    ((b.take now 1).1 = true ↔ l.Grants b.level e) ∧
      (b.take now 1).2.level = l.take b.level e ∧ (b.take now 1).2.Fits l now := by
  have hrefill : min (b.tokens + ((now - b.last : ℕ) : ℚ) / (second : ℚ) * b.ratePerS) b.cap
      = l.refilled b.level (l.time e) := by
    rw [Limit.refilled, htime, hb.cap_eq, hb.rate_eq, Nat.cast_sub hb.last_le, sub_div]
    rfl
  have hfits : ∀ tokens, 0 ≤ tokens → ({ b with tokens, last := now } : TokenBucket).Fits l now :=
    fun _ htokens ↦ ⟨hb.cap_eq, hb.rate_eq, le_refl now, htokens⟩
  have hlevel : l.take b.level e
      = ⟨l.refilled b.level (l.time e) - l.taken b.level e, seconds now⟩ := by
    rw [← htime]
    rfl
  rw [take, hrefill, hlevel, Limit.taken]
  by_cases hgrants : l.Grants b.level e
  · have hge : l.refilled b.level (l.time e) ≥ 1 := hcost ▸ hgrants
    simp only [if_pos hge, if_pos hgrants, hcost]
    exact ⟨iff_of_true trivial hgrants, rfl, hfits _ (sub_nonneg.mpr hge)⟩
  · have hlt : ¬l.refilled b.level (l.time e) ≥ 1 := hcost ▸ hgrants
    simp only [if_neg hlt, if_neg hgrants, sub_zero]
    refine ⟨iff_of_false Bool.false_ne_true hgrants, rfl, hfits _ ?_⟩
    refine le_min (add_nonneg hb.tokens_nonneg (mul_nonneg (sub_nonneg.mpr ?_) l.rate_nonneg))
      l.cap_nonneg
    rw [htime]
    exact seconds_le hb.last_le

end TokenBucket

/-! ## Maps of buckets -/

section Maps

variable {E : Type*} {ι : Type} [DecidableEq ι]

/-- Take one token from the bucket of a key, which is made if it is not there. -/
def draw (l : Limit E ℚ) (m : HashMap ι TokenBucket) (k : ι) (now : ℕ) :
    Bool × HashMap ι TokenBucket :=
  let (ok, b) := ((m.lookup k).getD (TokenBucket.new now l.cap l.rate)).take now 1
  (ok, m.insert k b)

/-- The bucket of a key. One that is not there has been full since the beginning. -/
def levelOf (l : Limit E ℚ) (m : HashMap ι TokenBucket) (k : ι) : Level ℚ :=
  ((m.lookup k).map TokenBucket.level).getD (l.full 0)

/-- All buckets were made for the limit. -/
def Fits (l : Limit E ℚ) (t : ℕ) (m : HashMap ι TokenBucket) : Prop :=
  ∀ k b, m.lookup k = some b → b.Fits l t

variable {l : Limit E ℚ} {m : HashMap ι TokenBucket} {t now : ℕ} {e : E}

theorem fits_empty (l : Limit E ℚ) (t : ℕ) : Fits l t (∅ : HashMap ι TokenBucket) := by
  intro k b h
  rw [AList.lookup_empty] at h
  cases h

theorem Fits.mono (h : Fits l t m) (hle : t ≤ now) : Fits l now m :=
  fun k b hb ↦ { h k b hb with last_le := (h k b hb).last_le.trans hle }

theorem Fits.tokens_nonneg (h : Fits l t m) (k : ι) : 0 ≤ (levelOf l m k).tokens := by
  rw [levelOf]
  rcases hb : m.lookup k with _ | b
  · exact l.cap_nonneg
  · exact (h k b hb).tokens_nonneg

theorem Fits.last_le (h : Fits l t m) (k : ι) : (levelOf l m k).last ≤ seconds t := by
  rw [levelOf]
  rcases hb : m.lookup k with _ | b
  · exact seconds_nonneg t
  · exact seconds_le (h k b hb).last_le

theorem draw_spec (h : Fits l now m) (htime : l.time e = seconds now) (hcost : l.cost e = 1)
    (k : ι) :
    ((draw l m k now).1 = true ↔ l.Grants (levelOf l m k) e) ∧
      (∀ k', levelOf l (draw l m k now).2 k'
        = if k' = k then l.take (levelOf l m k) e else levelOf l m k') ∧
      Fits l now (draw l m k now).2 := by
  -- a new bucket does what one does that has always been full
  obtain ⟨b, hb, hfits, hgrants, htake⟩ : ∃ b,
      (m.lookup k).getD (TokenBucket.new now l.cap l.rate) = b ∧ b.Fits l now ∧
      (l.Grants b.level e ↔ l.Grants (levelOf l m k) e) ∧
      l.take b.level e = l.take (levelOf l m k) e := by
    rw [levelOf]
    rcases hb : m.lookup k with _ | b
    · obtain ⟨htake, hgrants⟩ := Limit.take_full (l := l) (r := e) (htime ▸ seconds_nonneg now)
      have hfull : (TokenBucket.new now l.cap l.rate).level = l.full (l.time e) := by
        rw [htime]
        rfl
      refine ⟨TokenBucket.new now l.cap l.rate, rfl, ⟨rfl, rfl, le_refl now, l.cap_nonneg⟩, ?_, ?_⟩
      · rw [hfull]
        exact hgrants.symm
      · rw [hfull]
        exact htake.symm
    · exact ⟨b, rfl, h k b hb, Iff.rfl, rfl⟩
  obtain ⟨hok, hlevel, hafter⟩ := TokenBucket.take_spec hfits htime hcost
  have hdraw : draw l m k now = ((b.take now 1).1, m.insert k (b.take now 1).2) := by
    rw [draw, hb]
  rw [hdraw]
  refine ⟨hok.trans hgrants, fun k' ↦ ?_, fun k' b' hb' ↦ ?_⟩
  · rw [levelOf, HashMap.lookup_insert_of]
    by_cases hk : k' = k
    · rw [if_pos hk, if_pos hk, Option.map_some, Option.getD_some, hlevel, htake]
    · rw [if_neg hk, if_neg hk, levelOf]
  · rw [HashMap.lookup_insert_of] at hb'
    split_ifs at hb'
    · rw [← Option.some.inj hb']
      exact hafter
    · exact h k' b' hb'

end Maps

/-! ## Calls -/

/-- A call of `allow_pre_handshake`. -/
structure Knock where
  now : ℕ
  src : SocketAddr
deriving DecidableEq

namespace Sybil

def knock (s : Sybil) (q : Knock) : Sybil := (s.allowPreHandshake q.now q.src).2

/-- The call is let through. -/
def Admits (s : Sybil) (q : Knock) : Prop := (s.allowPreHandshake q.now q.src).1 = true

instance (s : Sybil) (q : Knock) : Decidable (s.Admits q) := inferInstanceAs (Decidable (_ = _))

/-- The bucket of an address. -/
def ipLevel (s : Sybil) (ip : IpAddr) : Level ℚ := levelOf (ipLimit Knock.now) s.ipBuckets ip

/-- The bucket of a network. -/
def prefixLevel (s : Sybil) (p : UInt8 × UInt8 × UInt8) : Level ℚ :=
  levelOf (prefixLimit Knock.now) s.prefixBuckets p

/-- The address of the sender has a token left. -/
def Passes (s : Sybil) (q : Knock) : Prop := (ipLimit Knock.now).Grants (s.ipLevel q.src.ip) q

instance (s : Sybil) (q : Knock) : Decidable (s.Passes q) :=
  inferInstanceAs (Decidable (Limit.Grants _ _ _))

/-- All buckets are as `allow_pre_handshake` makes them, and were last asked by time `t`. -/
structure Steady (s : Sybil) (t : ℕ) : Prop where
  ip : Fits (ipLimit Knock.now) t s.ipBuckets
  net : Fits (prefixLimit Knock.now) t s.prefixBuckets

variable {s : Sybil} {t : ℕ} {q : Knock}

theorem steady_new (t : ℕ) : new.Steady t := ⟨fits_empty _ t, fits_empty _ t⟩

theorem ipLevel_new (ip : IpAddr) : new.ipLevel ip = (ipLimit Knock.now).full 0 := rfl

theorem prefixLevel_new (p : UInt8 × UInt8 × UInt8) :
    new.prefixLevel p = (prefixLimit Knock.now).full 0 := rfl

theorem Steady.mono (h : s.Steady t) {t' : ℕ} (hle : t ≤ t') : s.Steady t' :=
  ⟨h.ip.mono hle, h.net.mono hle⟩

theorem allowPreHandshake_of_not_ok (s : Sybil) {now : ℕ} {src : SocketAddr}
    (hok : (draw (ipLimit Knock.now) s.ipBuckets src.ip now).1 = false) :
    s.allowPreHandshake now src =
      (false, { s with ipBuckets := (draw (ipLimit Knock.now) s.ipBuckets src.ip now).2 }) :=
  if_pos hok

theorem allowPreHandshake_of_prefix_none (s : Sybil) {now : ℕ} {src : SocketAddr}
    (hok : (draw (ipLimit Knock.now) s.ipBuckets src.ip now).1 = true)
    (hp : RoutingTable.prefix24 src = none) :
    s.allowPreHandshake now src =
      (true, { s with ipBuckets := (draw (ipLimit Knock.now) s.ipBuckets src.ip now).2 }) := by
  have hne : ¬(draw (ipLimit Knock.now) s.ipBuckets src.ip now).1 = false := by simp [hok]
  refine (if_neg hne).trans ?_
  rw [hp]
  rfl

theorem allowPreHandshake_of_prefix_some (s : Sybil) {now : ℕ} {src : SocketAddr}
    {p : UInt8 × UInt8 × UInt8}
    (hok : (draw (ipLimit Knock.now) s.ipBuckets src.ip now).1 = true)
    (hp : RoutingTable.prefix24 src = some p) :
    s.allowPreHandshake now src =
      ((draw (prefixLimit Knock.now) s.prefixBuckets p now).1,
        { s with
          ipBuckets := (draw (ipLimit Knock.now) s.ipBuckets src.ip now).2
          prefixBuckets := (draw (prefixLimit Knock.now) s.prefixBuckets p now).2 }) := by
  have hne : ¬(draw (ipLimit Knock.now) s.ipBuckets src.ip now).1 = false := by simp [hok]
  refine (if_neg hne).trans ?_
  rw [hp]
  rfl

attribute [local irreducible] draw levelOf Limit.Grants Limit.take

/-- **One call.** It draws from the bucket of the address, and if there is a token, from the bucket
of the network; it is let through if both had one. -/
theorem knock_spec (h : s.Steady q.now) :
    (s.Admits q ↔ s.Passes q ∧ ∀ p, RoutingTable.prefix24 q.src = some p →
        (prefixLimit Knock.now).Grants (s.prefixLevel p) q) ∧
      (∀ ip, (s.knock q).ipLevel ip
        = if q.src.ip = ip then (ipLimit Knock.now).take (s.ipLevel ip) q else s.ipLevel ip) ∧
      (∀ p, (s.knock q).prefixLevel p
        = if RoutingTable.prefix24 q.src = some p ∧ s.Passes q then
            (prefixLimit Knock.now).take (s.prefixLevel p) q
          else s.prefixLevel p) ∧
      (s.knock q).Steady q.now := by
  obtain ⟨hok, hips, hip⟩ := draw_spec (e := q) h.ip rfl rfl q.src.ip
  have hlevel : ∀ {s' : Sybil},
      s'.ipBuckets = (draw (ipLimit Knock.now) s.ipBuckets q.src.ip q.now).2 → ∀ ip,
      s'.ipLevel ip = if q.src.ip = ip then (ipLimit Knock.now).take (s.ipLevel ip) q
        else s.ipLevel ip := by
    intro s' hs' ip
    rw [ipLevel, hs', hips ip]
    by_cases hsrc : q.src.ip = ip
    · rw [if_pos hsrc, if_pos hsrc.symm, ipLevel, hsrc]
    · rw [if_neg hsrc, if_neg (Ne.symm hsrc), ipLevel]
  rw [Admits, knock]
  by_cases hpass : s.Passes q
  · rcases hp : RoutingTable.prefix24 q.src with _ | p
    · rw [s.allowPreHandshake_of_prefix_none (hok.mpr hpass) hp]
      refine ⟨iff_of_true rfl ⟨hpass, nofun⟩, hlevel rfl, fun p ↦ ?_, ⟨hip, h.net⟩⟩
      rw [if_neg fun hand ↦ nomatch hand.1]
      rfl
    · rw [s.allowPreHandshake_of_prefix_some (hok.mpr hpass) hp]
      obtain ⟨hok', hnets, hnet⟩ := draw_spec (e := q) h.net rfl rfl p
      refine ⟨?_, hlevel rfl, fun p' ↦ ?_, ⟨hip, hnet⟩⟩
      · refine hok'.trans ⟨fun hg ↦ ⟨hpass, fun p' hp' ↦ ?_⟩, fun hg ↦ hg.2 p rfl⟩
        rw [← Option.some.inj hp']
        exact hg
      · refine (hnets p').trans ?_
        by_cases hpp : p' = p
        · rw [if_pos hpp, if_pos ⟨congrArg some hpp.symm, hpass⟩, prefixLevel, hpp]
        · rw [if_neg hpp, if_neg fun hand ↦ hpp (Option.some.inj hand.1).symm, prefixLevel]
  · have hfalse : (draw (ipLimit Knock.now) s.ipBuckets q.src.ip q.now).1 = false :=
      Bool.eq_false_iff.mpr (mt hok.mp hpass)
    rw [s.allowPreHandshake_of_not_ok hfalse]
    refine ⟨iff_of_false Bool.false_ne_true fun hand ↦ hpass hand.1, hlevel rfl, fun p ↦ ?_,
      ⟨hip, h.net⟩⟩
    rw [if_neg fun hand ↦ hpass hand.2]
    rfl

/-! ## Calls in the order of the clock -/

variable {qs : List Knock}

theorem Steady.along (h : s.Steady t) (ht : ∀ q ∈ qs, t ≤ q.now)
    (hclock : qs.Pairwise fun q q' ↦ q.now ≤ q'.now) :
    Runs.Along knock (fun s q ↦ s.Steady q.now) s qs := by
  induction qs generalizing s t with
  | nil => trivial
  | cons q qs ih =>
    obtain ⟨hfirst, hrest⟩ := List.pairwise_cons.mp hclock
    have hnow := h.mono (ht q List.mem_cons_self)
    exact ⟨hnow, ih (knock_spec hnow).2.2.2 hfirst hrest⟩

theorem steady_along_new (hclock : qs.Pairwise fun q q' ↦ q.now ≤ q'.now) :
    Runs.Along knock (fun s q ↦ s.Steady q.now) new qs :=
  (steady_new 0).along (fun _ _ ↦ Nat.zero_le _) hclock

theorem along_passes_iff (hclock : qs.Pairwise fun q q' ↦ q.now ≤ q'.now) (ip : IpAddr) :
    Runs.Along knock (fun s q ↦ q.src.ip = ip → s.Passes q) new qs ↔
      (ipLimit Knock.now).Conforms (qs.filter fun q ↦ q.src.ip = ip) := by
  have hsteady := steady_along_new hclock
  have hdraws : Runs.Along knock ((ipLimit Knock.now).Draws knock (fun _ q ↦ q.src.ip = ip)
      fun s ↦ s.ipLevel ip) new qs := hsteady.mono fun s q h ↦ (knock_spec h).2.1 ip
  have hselect : Runs.select knock (fun _ q ↦ q.src.ip = ip) new qs
      = qs.filter fun q ↦ q.src.ip = ip :=
    Runs.select_eq_filter (hsteady.mono fun _ _ _ ↦ decide_eq_true_iff.symm)
  have hpasses : Runs.Along knock (fun s q ↦ q.src.ip = ip → s.Passes q) new qs ↔
      Runs.Along knock
        (fun s q ↦ q.src.ip = ip → (ipLimit Knock.now).Grants (s.ipLevel ip) q) new qs :=
    hsteady.congr fun s q _ ↦ forall_congr' fun hip ↦ by rw [Passes, hip]
  rw [hpasses, Limit.along_grants_iff hdraws, hselect, ipLevel_new]
  exact Limit.allGranted_full_iff fun q _ ↦ seconds_nonneg (Knock.now q)

/-- If no address of a network is refused, the bucket of the network never refuses it if and only if
the calls of the network conform. -/
theorem along_grants_prefix_iff (hclock : qs.Pairwise fun q q' ↦ q.now ≤ q'.now)
    {p : UInt8 × UInt8 × UInt8}
    (hpass : Runs.Along knock (fun s q ↦ RoutingTable.prefix24 q.src = some p → s.Passes q)
      new qs) :
    Runs.Along knock (fun s q ↦ RoutingTable.prefix24 q.src = some p →
        (prefixLimit Knock.now).Grants (s.prefixLevel p) q) new qs ↔
      (prefixLimit Knock.now).Conforms
        (qs.filter fun q ↦ RoutingTable.prefix24 q.src = some p) := by
  have hdraws : Runs.Along knock ((prefixLimit Knock.now).Draws knock
      (fun s q ↦ RoutingTable.prefix24 q.src = some p ∧ s.Passes q) fun s ↦ s.prefixLevel p)
      new qs := (steady_along_new hclock).mono fun s q h ↦ (knock_spec h).2.2.1 p
  have hselect : Runs.select knock
      (fun s q ↦ RoutingTable.prefix24 q.src = some p ∧ s.Passes q) new qs
      = qs.filter fun q ↦ RoutingTable.prefix24 q.src = some p :=
    Runs.select_eq_filter (hpass.mono fun s q h ↦
      (and_iff_left_of_imp h).trans decide_eq_true_iff.symm)
  have hgrants := hpass.congr (P := fun s q ↦ RoutingTable.prefix24 q.src = some p →
      (prefixLimit Knock.now).Grants (s.prefixLevel p) q)
    (Q := fun s q ↦ RoutingTable.prefix24 q.src = some p ∧ s.Passes q →
      (prefixLimit Knock.now).Grants (s.prefixLevel p) q)
    fun s q h ↦ by rw [and_iff_left_of_imp h]
  rw [hgrants, Limit.along_grants_iff hdraws, hselect, prefixLevel_new]
  exact Limit.allGranted_full_iff fun q _ ↦ seconds_nonneg (Knock.now q)

theorem prefix24_eq_some_iff {src : SocketAddr} {a b c : UInt8} :
    RoutingTable.prefix24 src = some (a, b, c) ↔ ∃ d, src.ip = .v4 a b c d := by
  rw [RoutingTable.prefix24]
  rcases src.ip with ⟨a', b', c', d'⟩ | octets
  · simp
  · simp

/-- **Who is served.** With the clock going forward and tokens counted exactly, all calls of an IPv4
network are let through if and only if no window of the calls of one of its addresses exceeds 20
calls and 10 per second, and no window of the calls of the network 80 and 40 per second. For an IPv6
address only the first matters. The calls of others make no difference. -/
theorem served_iff (qs : List Knock) (hclock : qs.Pairwise fun q q' ↦ q.now ≤ q'.now) :
    (∀ a b c, Runs.Along knock
        (fun s q ↦ RoutingTable.prefix24 q.src = some (a, b, c) → s.Admits q) new qs ↔
      (∀ d, (ipLimit Knock.now).Conforms (qs.filter fun q ↦ q.src.ip = .v4 a b c d)) ∧
        (prefixLimit Knock.now).Conforms
          (qs.filter fun q ↦ RoutingTable.prefix24 q.src = some (a, b, c))) ∧
      ∀ octets, Runs.Along knock (fun s q ↦ q.src.ip = .v6 octets → s.Admits q) new qs ↔
        (ipLimit Knock.now).Conforms (qs.filter fun q ↦ q.src.ip = .v6 octets) := by
  have hsteady := steady_along_new hclock
  constructor
  · intro a b c
    have hadmits : Runs.Along knock
        (fun s q ↦ RoutingTable.prefix24 q.src = some (a, b, c) → s.Admits q) new qs ↔
        Runs.Along knock (fun s q ↦
          (RoutingTable.prefix24 q.src = some (a, b, c) → s.Passes q) ∧
          (RoutingTable.prefix24 q.src = some (a, b, c) →
            (prefixLimit Knock.now).Grants (s.prefixLevel (a, b, c)) q)) new qs := by
      refine hsteady.congr fun s q h ↦ ?_
      rw [(knock_spec h).1, ← imp_and]
      refine forall_congr' fun hp ↦ and_congr_right' ⟨fun hg ↦ hg _ hp, fun hg p hp' ↦ ?_⟩
      rw [← Option.some.inj (hp.symm.trans hp')]
      exact hg
    have hpass : Runs.Along knock
        (fun s q ↦ RoutingTable.prefix24 q.src = some (a, b, c) → s.Passes q) new qs ↔
        ∀ d, (ipLimit Knock.now).Conforms (qs.filter fun q ↦ q.src.ip = .v4 a b c d) := by
      simp only [prefix24_eq_some_iff, forall_exists_index]
      rw [Runs.along_forall]
      exact forall_congr' fun d ↦ along_passes_iff hclock _
    rw [hadmits, Runs.along_and, and_congr_right fun h ↦ along_grants_prefix_iff hclock h, hpass]
  · intro octets
    rw [← along_passes_iff hclock]
    refine hsteady.congr fun s q h ↦ forall_congr' fun hip ↦ ?_
    rw [(knock_spec h).1]
    refine and_iff_left fun p hp ↦ ?_
    rw [RoutingTable.prefix24, hip] at hp
    cases hp

/-- Twenty-one calls at once are too many for one address. -/
theorem served_iff_burst :
    let qs := List.replicate 21 (⟨0, .ofV4 10 0 0 1 9000⟩ : Knock)
    ¬Runs.Along knock (fun s q ↦ RoutingTable.prefix24 q.src = some (10, 0, 0) → s.Admits q)
        new qs ∧
      ¬((∀ d, (ipLimit Knock.now).Conforms (qs.filter fun q ↦ q.src.ip = .v4 10 0 0 d)) ∧
        (prefixLimit Knock.now).Conforms
          (qs.filter fun q ↦ RoutingTable.prefix24 q.src = some (10, 0, 0))) := by
  have hrefused : ¬Runs.Along knock
      (fun s q ↦ RoutingTable.prefix24 q.src = some (10, 0, 0) → s.Admits q) new
      (List.replicate 21 ⟨0, .ofV4 10 0 0 1 9000⟩) := by decide +kernel
  exact ⟨hrefused, mt ((served_iff _ (by decide +kernel)).1 10 0 0).mpr hrefused⟩

end Sybil

end Molia
