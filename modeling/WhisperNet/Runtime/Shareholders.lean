import WhisperNet.Crypto.Reference
import WhisperNet.Crypto.Secrecy
import WhisperNet.Runtime.Shares

/-!
# Who Holds the Shares

A submission splits its key over every encryption key the node has heard of,
its own first. Peers that have been confirmed dead keep their entry and their
key, so they are given shares like the others and count toward the threshold,
which is half of the keys. Nothing bounds the number of keys either, while the
share of a key has its place in the list as its coordinate and the arithmetic
reads eight bits of that.

So there are two conditions on the table a submission is made from. The dead
alone may hold half of the keys at most (`satisfiable_iff`), and there may be
255 keys at most (`field_shares_iff`). The share at coordinate 256, where there
is one, is the key that was split (`share_256`).

## Main definitions

* `hashed`: A hashable value as a dictionary key.
* `knownKeys`, `heldKeys`, `lostKeys`: The encryption keys a node knows, those
  of nodes that are not dead, and the others.
* `Belongs`: A key of the node itself or of a peer that is not dead.
* `FieldShares`: What the shares of a split are supposed to be.

## Theorems

* `fromKeys_spec`: Removing duplicates keeps one value for each key.
* `length_keys`, `length_belonging`: The keys of a submission, counted.
* `satisfiable_iff`: Enough keys belong to nodes that are not dead.
* `field_shares_iff`: The shares are values of a polynomial at different points.
-/

namespace WhisperNet

open PyVal (lt)

/-! ## Encryption keys -/

/-- Removing duplicates keeps one value of each key that is not left out. -/
theorem fromKeys_spec (vs : List PyVal) (seen : List Key) (out : List PyVal)
    (h : fromKeys vs seen = .ok out) :
    (∀ v ∈ vs, ∃ k, hashKey v = .ok k) ∧ (∀ v ∈ out, v ∈ vs) ∧ (out.map hashed).Nodup ∧
      ∀ k, k ∈ out.map hashed ↔ k ∈ vs.map hashed ∧ k ∉ seen := by
  -- Induction on the values, over what has been seen before them.
  induction vs generalizing seen out with
  | nil =>
      rw [fromKeys, Except.ok.injEq] at h
      rw [← h]
      exact ⟨fun _ hv => absurd hv List.not_mem_nil, fun _ hv => hv, List.nodup_nil,
        fun k => ⟨fun hk => absurd hk List.not_mem_nil, fun hk => absurd hk.1 List.not_mem_nil⟩⟩
  | cons v vs ih =>
      rw [fromKeys] at h
      cases hkey : hashKey v with
      | error e =>
          rw [hkey] at h
          exact (nomatch h)
      | ok k₀ =>
          have hhash := hashed_of_ok hkey
          have hhashable : (∀ w ∈ vs, ∃ k, hashKey w = .ok k) →
              ∀ w ∈ v :: vs, ∃ k, hashKey w = .ok k := by
            intro hvs w hw
            rcases List.mem_cons.mp hw with rfl | hw
            · exact ⟨k₀, hkey⟩
            · exact hvs w hw
          simp only [hkey] at h
          by_cases hseen : k₀ ∈ seen
          · -- The value is left out, and its key with it.
            rw [if_pos hseen] at h
            rcases ih seen out h with ⟨hall, hsub, hnd, hmem⟩
            refine ⟨hhashable hall, fun w hw => List.mem_cons_of_mem _ (hsub w hw), hnd,
              fun k => ?_⟩
            rw [hmem, List.map_cons, List.mem_cons, hhash]
            constructor
            · exact fun hk => ⟨Or.inr hk.1, hk.2⟩
            · rintro ⟨rfl | hk, hns⟩
              · exact absurd hseen hns
              · exact ⟨hk, hns⟩
          · -- The value is kept, and its key counts as seen for the rest.
            rw [if_neg hseen] at h
            cases hrest : fromKeys vs (k₀ :: seen) with
            | error e =>
                rw [hrest] at h
                exact (nomatch h)
            | ok rest =>
                rw [hrest] at h
                have hout : v :: rest = out := Except.ok.inj h
                rcases ih (k₀ :: seen) rest hrest with ⟨hall, hsub, hnd, hmem⟩
                rw [← hout]
                refine ⟨hhashable hall, fun w hw => ?_, ?_, fun k => ?_⟩
                · rcases List.mem_cons.mp hw with rfl | hw
                  · exact List.mem_cons_self ..
                  · exact List.mem_cons_of_mem _ (hsub w hw)
                · rw [List.map_cons, List.nodup_cons, hhash, hmem]
                  exact ⟨fun hk => hk.2 (List.mem_cons_self ..), hnd⟩
                · rw [List.map_cons, List.map_cons, List.mem_cons, List.mem_cons, hmem, hhash,
                    List.mem_cons, not_or]
                  constructor
                  · rintro (rfl | ⟨hk, _, hns⟩)
                    · exact ⟨Or.inl rfl, hseen⟩
                    · exact ⟨Or.inr hk, hns⟩
                  · rintro ⟨hk, hns⟩
                    by_cases heq : k = k₀
                    · exact Or.inl heq
                    · exact Or.inr ⟨hk.resolve_left heq, heq, hns⟩

namespace MembershipLayer

variable (M : MembershipLayer)

/-- The encryption keys that some of the peers advertise. -/
def peerKeys (p : PeerInfo → Bool) : Finset Key :=
  ((M.peers.values.filter (fun i => p i && i.encPubkey.truthy)).map
    (fun i => hashed i.encPubkey)).toFinset

/-- The encryption keys a node knows, its own among them. -/
def knownKeys (own : PyStr) : Finset Key := insert (.str own) (M.peerKeys (fun _ => true))

/-- The keys of the node itself and of peers that are not dead. -/
def heldKeys (own : PyStr) : Finset Key :=
  insert (.str own) (M.peerKeys (fun i => i.status ≠ .dead))

/-- The keys that only dead peers advertise. -/
def lostKeys (own : PyStr) : Finset Key :=
  M.peerKeys (fun i => i.status = .dead) \ M.heldKeys own

end MembershipLayer

open MembershipLayer

theorem mem_peerKeys (M : MembershipLayer) (p : PeerInfo → Bool) (k : Key) :
    k ∈ M.peerKeys p ↔
      ∃ i ∈ M.peers.values, p i = true ∧ i.encPubkey.truthy = true ∧ hashed i.encPubkey = k := by
  rw [peerKeys, List.mem_toFinset, List.mem_map]
  constructor
  · rintro ⟨i, hi, hik⟩
    rcases List.mem_filter.mp hi with ⟨hmem, hp⟩
    rw [Bool.and_eq_true] at hp
    exact ⟨i, hmem, hp.1, hp.2, hik⟩
  · rintro ⟨i, hmem, hp, ht, hik⟩
    exact ⟨i, List.mem_filter.mpr ⟨hmem, by rw [hp, ht]; rfl⟩, hik⟩

/-- A key is held, or else only dead peers have it. -/
theorem card_knownKeys (M : MembershipLayer) (own : PyStr) :
    (M.knownKeys own).card = (M.heldKeys own).card + (M.lostKeys own).card := by
  have hdisj : Disjoint (M.heldKeys own) (M.lostKeys own) := Finset.disjoint_sdiff
  rw [← Finset.card_union_of_disjoint hdisj, lostKeys, Finset.union_sdiff_self_eq_union]
  refine congrArg Finset.card (Finset.ext (fun k => ?_))
  rw [knownKeys, heldKeys, Finset.mem_union, Finset.mem_insert, Finset.mem_insert, mem_peerKeys,
    mem_peerKeys, mem_peerKeys]
  constructor
  · rintro (hown | ⟨i, hi, _, ht, hik⟩)
    · exact Or.inl (Or.inl hown)
    · by_cases hdead : i.status = .dead
      · exact Or.inr ⟨i, hi, decide_eq_true hdead, ht, hik⟩
      · exact Or.inl (Or.inr ⟨i, hi, decide_eq_true hdead, ht, hik⟩)
  · rintro ((hown | ⟨i, hi, _, ht, hik⟩) | ⟨i, hi, _, ht, hik⟩)
    · exact Or.inl hown
    · exact Or.inr ⟨i, hi, rfl, ht, hik⟩
    · exact Or.inr ⟨i, hi, rfl, ht, hik⟩

/-- The key is the node's own, or a peer that is not dead advertises it. -/
def Belongs (own : PyStr) (M : MembershipLayer) (v : PyVal) : Prop :=
  v = .str own ∨ ∃ i ∈ M.peers.values, i.status ≠ .dead ∧ i.encPubkey.truthy = true ∧
    pyEq i.encPubkey v = true

section Params

variable {P : Primitives} {cipher : PayloadCipher} {M : MembershipLayer} {own : PyStr} {t : Nat}
  {keys : List PyVal}

/-- The keys of a submission are the known ones, each once, and more than two;
    half of them, rounded up, are the threshold. -/
theorem threshold_keys (hown : cipher.pubkeyHex P = some own)
    (h : getThresholdParams P cipher M = .ok (some (t, keys))) :
    t = (keys.length + 1) / 2 ∧ 3 ≤ keys.length ∧
      fromKeys (.str own :: (M.peers.values.map PeerInfo.encPubkey).filter PyVal.truthy) [] =
        .ok keys := by
  unfold getThresholdParams at h
  simp only [hown] at h
  split at h
  · exact (nomatch h)
  · rename_i all hall
    by_cases hfew : all.length < 3
    · rw [if_pos hfew] at h
      exact (nomatch h)
    · rw [if_neg hfew, Except.ok.injEq, Option.some.injEq, Prod.mk.injEq] at h
      rw [← h.1, ← h.2]
      exact ⟨rfl, by omega, hall⟩

/-- A value of the list that is deduplicated is the node's own or a peer's. -/
theorem mem_advertised (v : PyVal) :
    v ∈ PyVal.str own :: (M.peers.values.map PeerInfo.encPubkey).filter PyVal.truthy ↔
      v = .str own ∨ ∃ i ∈ M.peers.values, i.encPubkey.truthy = true ∧ i.encPubkey = v := by
  rw [List.mem_cons, List.mem_filter, List.mem_map]
  constructor
  · rintro (hv | ⟨⟨i, hi, hiv⟩, ht⟩)
    · exact Or.inl hv
    · exact Or.inr ⟨i, hi, by rw [hiv, ht], hiv⟩
  · rintro (hv | ⟨i, hi, ht, hiv⟩)
    · exact Or.inl hv
    · exact Or.inr ⟨⟨i, hi, hiv⟩, by rw [← hiv, ht]⟩

theorem toFinset_keys (hown : cipher.pubkeyHex P = some own)
    (h : getThresholdParams P cipher M = .ok (some (t, keys))) :
    (keys.map hashed).toFinset = M.knownKeys own := by
  rcases threshold_keys hown h with ⟨_, _, hfrom⟩
  rcases fromKeys_spec _ _ _ hfrom with ⟨_, _, _, hmem⟩
  ext k
  rw [List.mem_toFinset, hmem, List.mem_map, knownKeys, Finset.mem_insert, mem_peerKeys]
  constructor
  · rintro ⟨⟨v, hv, hvk⟩, _⟩
    rcases (mem_advertised v).mp hv with hv | ⟨i, hi, ht, hiv⟩
    · rw [hv] at hvk
      exact Or.inl hvk.symm
    · exact Or.inr ⟨i, hi, rfl, ht, by rw [hiv, hvk]⟩
  · rintro (hk | ⟨i, hi, _, ht, hik⟩)
    · exact ⟨⟨.str own, List.mem_cons_self .., hk.symm⟩, List.not_mem_nil⟩
    · exact ⟨⟨i.encPubkey, (mem_advertised _).mpr (Or.inr ⟨i, hi, ht, rfl⟩), hik⟩,
        List.not_mem_nil⟩

theorem length_keys (hown : cipher.pubkeyHex P = some own)
    (h : getThresholdParams P cipher M = .ok (some (t, keys))) :
    keys.length = (M.knownKeys own).card := by
  rcases threshold_keys hown h with ⟨_, _, hfrom⟩
  rcases fromKeys_spec _ _ _ hfrom with ⟨_, _, hnd, _⟩
  rw [← toFinset_keys hown h, List.toFinset_card_of_nodup hnd, List.length_map]

/-- A key of a submission belongs to a node that is not dead if it is held. -/
theorem belongs_iff (hown : cipher.pubkeyHex P = some own)
    (h : getThresholdParams P cipher M = .ok (some (t, keys))) {v : PyVal} (hv : v ∈ keys) :
    Belongs own M v ↔ hashed v ∈ M.heldKeys own := by
  rcases threshold_keys hown h with ⟨_, _, hfrom⟩
  rcases fromKeys_spec _ _ _ hfrom with ⟨hall, hsub, _, _⟩
  rcases hall v (hsub v hv) with ⟨k, hk⟩
  rw [Belongs, heldKeys, Finset.mem_insert, mem_peerKeys]
  refine or_congr ?_ (exists_congr (fun i => and_congr_right (fun hi => ?_)))
  · rw [hashed_of_ok hk, ← hashKey_eq_str, hk, Except.ok.injEq]
  · rw [decide_eq_true_iff]
    refine and_congr_right (fun _ => and_congr_right (fun ht => ?_))
    rcases hall _ ((mem_advertised _).mpr (Or.inr ⟨i, hi, ht, rfl⟩)) with ⟨l, hl⟩
    exact pyEq_iff_hashed hl hk

open Classical in
/-- As many keys of a submission belong to nodes that are not dead as are held. -/
theorem length_belonging (hown : cipher.pubkeyHex P = some own)
    (h : getThresholdParams P cipher M = .ok (some (t, keys))) :
    (keys.filter (fun v => decide (Belongs own M v))).length = (M.heldKeys own).card := by
  rcases threshold_keys hown h with ⟨_, _, hfrom⟩
  rcases fromKeys_spec _ _ _ hfrom with ⟨_, _, hnd, _⟩
  have hset : ((keys.filter (fun v => decide (Belongs own M v))).map hashed).toFinset =
      M.heldKeys own := by
    ext k
    rw [List.mem_toFinset, List.mem_map]
    constructor
    · rintro ⟨v, hv, hvk⟩
      rcases List.mem_filter.mp hv with ⟨hmem, hbel⟩
      rw [← hvk]
      exact (belongs_iff hown h hmem).mp (of_decide_eq_true hbel)
    · intro hk
      -- A held key is known, so the submission has a value of it.
      have hknown : k ∈ M.knownKeys own := by
        rw [heldKeys, Finset.mem_insert, mem_peerKeys] at hk
        rw [knownKeys, Finset.mem_insert, mem_peerKeys]
        exact hk.imp_right (fun ⟨i, hi, _, hrest⟩ => ⟨i, hi, rfl, hrest⟩)
      rw [← toFinset_keys hown h, List.mem_toFinset, List.mem_map] at hknown
      rcases hknown with ⟨v, hv, hvk⟩
      refine ⟨v, List.mem_filter.mpr ⟨hv, decide_eq_true ?_⟩, hvk⟩
      rw [belongs_iff hown h hv, hvk]
      exact hk
  have hnd' : ((keys.filter (fun v => decide (Belongs own M v))).map hashed).Nodup :=
    hnd.sublist (List.filter_sublist.map hashed)
  rw [← hset, List.toFinset_card_of_nodup hnd', List.length_map]

open Classical in
/-- At least as many keys of a submission as its threshold belong to the node
    itself or to peers that are not dead, exactly when at most half of the known
    keys are advertised by dead peers alone. -/
theorem satisfiable_iff (P : Primitives) (cipher : PayloadCipher) (M : MembershipLayer)
    (own : PyStr) (hown : cipher.pubkeyHex P = some own) (t : Nat) (keys : List PyVal)
    (h : getThresholdParams P cipher M = .ok (some (t, keys))) :
    t ≤ (keys.filter (fun v => decide (Belongs own M v))).length ↔
      2 * (M.lostKeys own).card ≤ (M.knownKeys own).card := by
  have hlen := length_keys hown h
  have hsplit := card_knownKeys M own
  rw [length_belonging hown h, (threshold_keys hown h).1]
  omega

end Params

/-! ## The shares of a submission -/

open GF256

/-- `raw_shares` of an encryption: what it splits the AES key into. -/
def rawShares (rand : ThresholdCipher.Rand) (keys : List PyVal) (t : Nat) : List Share :=
  shamirSplit rand.aesKey keys.length t rand.coeffs

/-- What the shares of an encryption to these keys are supposed to be, whatever
    it draws: values at different elements of the field other than zero, none of
    them the AES key for every choice of the coefficients, and any `t` of them
    enough. -/
structure FieldShares (keys : List PyVal) (t : Nat) : Prop where
  inField : ∀ rand, ∀ e ∈ rawShares rand keys t, (wrap e.1).toInt = e.1
  nonzero : ∀ rand, ∀ e ∈ rawShares rand keys t, wrap e.1 ≠ 0
  distinct : ∀ rand, ((rawShares rand keys t).map (fun e => wrap e.1)).Nodup
  hidden : ∀ rand : ThresholdCipher.Rand, ∀ i < keys.length, ∃ coeffs,
    ∀ e, (rawShares { rand with coeffs := coeffs } keys t)[i]? = some e → e.2 ≠ rand.aesKey
  recovers : ∀ rand shares, (∀ e ∈ shares, e ∈ rawShares rand keys t) →
    (shares.map Prod.fst).Nodup → shares.length = t → shamirReconstruct shares = .ok rand.aesKey

section Split

variable {rand : ThresholdCipher.Rand} {keys : List PyVal} {t : Nat}

/-- The share in a place. -/
theorem rawShares_get {i : Nat} (hi : i < keys.length) :
    (rawShares rand keys t)[i]? = some ((i : Int) + 1, rand.aesKey.zipIdx.map (fun c =>
      byteOfInt ((secretPoly t (rand.coeffs c.2) c.1).eval (wrap ((i : Int) + 1))).toInt)) := by
  rw [rawShares, shamirSplit, List.getElem?_map, List.getElem?_range hi, Option.map_some]
  simp only [gfEval_shamirCoeffs]

theorem mem_rawShares {e : Share} (he : e ∈ rawShares rand keys t) :
    ∃ i : Nat, i < keys.length ∧ e.1 = (i : Int) + 1 := by
  rcases List.mem_map.mp he with ⟨i, hi, hie⟩
  exact ⟨i, List.mem_range.mp hi, by rw [← hie]⟩

/-- A share whose coordinate has a zero byte is the key, whatever is drawn. -/
theorem share_of_zero {i : Nat} (hi : i < keys.length) (hzero : wrap ((i : Int) + 1) = 0) :
    (rawShares rand keys t)[i]? = some ((i : Int) + 1, rand.aesKey) := by
  have hbyte : ∀ (k : Nat) (c : UInt8), byteOfInt
      ((secretPoly t (rand.coeffs k) c).eval (wrap ((i : Int) + 1))).toInt = c := by
    intro k c
    rw [hzero, secretPoly, eval_zero_ofCoeffs, byteOfInt_toInt_eq_iff]
  rw [rawShares_get hi]
  simp only [hbyte]
  exact congrArg (fun b => some ((i : Int) + 1, b)) (List.zipIdx_map_fst 0 rand.aesKey)

/-- The polynomial with one random coefficient that is not zero. -/
theorem eval_secretPoly_one (ht : 2 ≤ t) (c : UInt8) (x : GF256) :
    (secretPoly t (fun j => if j = 0 then 1 else 0) c).eval x = ofByte c + x := by
  have hzeros : ∀ cs : List GF256, (∀ a ∈ cs, a = 0) → (ofCoeffs cs).eval x = 0 := by
    intro cs
    induction cs with
    | nil => exact fun _ => Polynomial.eval_zero
    | cons a cs ih =>
        intro h
        rw [eval_ofCoeffs_cons, h a (List.mem_cons_self ..),
          ih (fun b hb => h b (List.mem_cons_of_mem _ hb)), mul_zero, add_zero]
  have hrange : List.range (t - 1) = 0 :: (List.range (t - 2)).map Nat.succ := by
    have ht1 : t - 1 = (t - 2) + 1 := by omega
    rw [ht1, List.range_succ_eq_map]
  have hone : ofByte 1 = 1 := rfl
  rw [secretPoly, hrange, List.map_cons, if_pos rfl, hone, eval_ofCoeffs_cons, eval_ofCoeffs_cons,
    hzeros, mul_zero, add_zero, mul_one]
  intro a ha
  rcases List.mem_map.mp ha with ⟨j, hj, hja⟩
  rcases List.mem_map.mp hj with ⟨k, _, hk⟩
  rw [← hja, ← hk, if_neg (Nat.succ_ne_zero k)]
  rfl

theorem wrap_place {i : Nat} (hi : i < 255) : (wrap ((i : Int) + 1)).toInt = (i : Int) + 1 := by
  have hof : ((i : Int) + 1) = (ofInt ((i : Int) + 1)).toInt :=
    (toInt_ofInt _ (by omega) (by omega)).symm
  conv_lhs => rw [hof]
  rw [wrap_toInt, ← hof]

theorem wrap_place_ne_zero {i : Nat} (hi : i < 255) : wrap ((i : Int) + 1) ≠ 0 := by
  intro hc
  have h := wrap_place hi
  rw [hc] at h
  have hzero : (0 : GF256).toInt = 0 := rfl
  omega

/-- A share of a place in the field depends on what is drawn. -/
theorem share_hidden (ht : 2 ≤ t) {i : Nat} (hi : i < keys.length) (hi' : i < 255) (e : Share)
    (he : (rawShares { rand with coeffs := fun _ j => if j = 0 then 1 else 0 } keys t)[i]? =
      some e) : e.2 ≠ rand.aesKey := by
  intro hkey
  rw [rawShares_get hi, Option.some.injEq] at he
  have hlt : 0 < rand.aesKey.length := by
    rw [rand.aesKey_length]
    decide
  -- The first byte of the key is enough to see it.
  have hhead : e.2[0]? = rand.aesKey[0]? := by rw [hkey]
  rw [← he, List.getElem?_map, List.getElem?_zipIdx, List.getElem?_eq_getElem hlt] at hhead
  simp only [Option.map_some, Option.some.injEq, byteOfInt_toInt_eq_iff,
    eval_secretPoly_one ht] at hhead
  exact wrap_place_ne_zero hi' (add_eq_left.mp hhead)

end Split

/-- Up to 255 shares are what they are supposed to be. -/
theorem fieldShares_of_le {keys : List PyVal} {t : Nat} (ht : 2 ≤ t) (hn : keys.length ≤ 255) :
    FieldShares keys t where
  inField := by
    intro rand e he
    rcases mem_rawShares he with ⟨i, hi, hx⟩
    rw [hx]
    exact wrap_place (by omega)
  nonzero := by
    intro rand e he
    rcases mem_rawShares he with ⟨i, hi, hx⟩
    rw [hx]
    exact wrap_place_ne_zero (by omega)
  distinct := by
    intro rand
    rw [rawShares, shamirSplit, List.map_map]
    -- Up to 255 shares the low byte of a place is the place itself.
    refine List.Nodup.map_on (fun i hi j hj hij => ?_) List.nodup_range
    rw [List.mem_range] at hi hj
    have h := congrArg toInt hij
    simp only [Function.comp_apply, wrap_place (show i < 255 by omega),
      wrap_place (show j < 255 by omega)] at h
    omega
  hidden := by
    intro rand i hi
    exact ⟨_, share_hidden ht hi (by omega)⟩
  recovers := by
    intro rand shares hmem hnd hlen
    refine reconstruct_of_holds (mem_split hn hmem) hnd ?_ (length_secretPolys ..)
      (secretPolys_spec rand.aesKey rand.coeffs (by omega) (by omega))
    intro hnil
    rw [hnil, List.length_nil] at hlen
    omega

section Params

variable {P : Primitives} {cipher : PayloadCipher} {M : MembershipLayer} {own : PyStr} {t : Nat}
  {keys : List PyVal}

/-- An encryption that draws nothing but zeros. -/
def zeros : ThresholdCipher.Rand where
  aesKey := List.replicate 32 0
  aesKey_length := List.length_replicate
  nonce := ⟨List.replicate 12 0, List.length_replicate⟩
  coeffs := fun _ _ => 0
  share := fun _ => ⟨[], ⟨List.replicate 12 0, List.length_replicate⟩⟩

/-- With more than 255 keys there is a share at the coordinate 256, and it is
    the AES key itself, whatever the coefficients are. -/
theorem share_256 (rand : ThresholdCipher.Rand) (hn : 256 ≤ keys.length) :
    (rawShares rand keys t)[255]? = some (256, rand.aesKey) :=
  share_of_zero (by omega) rfl

/-- The shares of a submission are what they are supposed to be exactly when the
    node knows 255 encryption keys at most. -/
theorem field_shares_iff (P : Primitives) (cipher : PayloadCipher) (M : MembershipLayer)
    (own : PyStr) (hown : cipher.pubkeyHex P = some own) (t : Nat) (keys : List PyVal)
    (h : getThresholdParams P cipher M = .ok (some (t, keys))) :
    FieldShares keys t ↔ (M.knownKeys own).card ≤ 255 := by
  rw [← length_keys hown h]
  constructor
  · intro hshares
    by_contra hc
    have hmem : ((256 : Int), zeros.aesKey) ∈ rawShares zeros keys t :=
      List.mem_of_getElem? (share_256 zeros (by omega))
    exact hshares.nonzero zeros _ hmem rfl
  · intro hn
    rcases threshold_keys hown h with ⟨ht, hmany, _⟩
    exact fieldShares_of_le (by omega) hn

end Params

namespace Crowd

/-- The encryption key of a node by its private key, for up to 256 of them. -/
def pubkey (i : Nat) : PyStr := hex (Reference.fit [UInt8.ofNat i])

def cipher : PayloadCipher := ⟨some [0]⟩

/-- The transport keys of the others: `a`, `aa` and so on. -/
def peerKey (i : Nat) : Key := .str (List.replicate (i + 1) 97)

theorem peerKey_injective : Function.Injective peerKey := by
  intro i j hij
  have hlen := congrArg List.length (Key.str.inj hij)
  rw [List.length_replicate, List.length_replicate] at hlen
  omega

/-- A node that has heard of `n` others, all in the same status. -/
def crowd (n : Nat) (st : PeerStatus) : MembershipLayer where
  ourKey := lit "us"
  peers :=
    { entries := (List.range n).map (fun i => (peerKey i,
        { status := st, lastSeen := 0, encPubkey := .str (pubkey (i + 1)) }))
      nodup := by
        rw [List.map_map]
        exact List.nodup_range.map peerKey_injective }

theorem pubkey_injOn {i j : Nat} (hi : i < 256) (hj : j < 256) (h : pubkey i = pubkey j) :
    i = j := by
  have hfit : Reference.fit [UInt8.ofNat i] = Reference.fit [UInt8.ofNat j] := by
    have hread := fromhex_hex (Reference.fit [UInt8.ofNat i])
    have hpub : hex (Reference.fit [UInt8.ofNat i]) = hex (Reference.fit [UInt8.ofNat j]) := h
    rw [hpub, fromhex_hex] at hread
    exact (Except.ok.inj hread).symm
  have hhead : (Reference.fit [UInt8.ofNat i])[0]? = (Reference.fit [UInt8.ofNat j])[0]? := by
    rw [hfit]
  have hbyte := congrArg UInt8.toNat (Option.some.inj hhead)
  rw [UInt8.toNat_ofNat', UInt8.toNat_ofNat'] at hbyte
  omega

theorem truthy_pubkey (i : Nat) : (PyVal.str (pubkey i)).truthy = true := by
  have hread := fromhex_hex (Reference.fit [UInt8.ofNat i])
  cases hkey : pubkey i with
  | nil =>
      have hempty : fromhex (hex (Reference.fit [UInt8.ofNat i])) = .ok [] := by
        rw [← pubkey, hkey]
        rfl
      rw [hread, Except.ok.injEq] at hempty
      have hlen := Reference.fit_length [UInt8.ofNat i]
      rw [hempty] at hlen
      exact absurd hlen (by decide)
  | cons c s => rfl

/-- Different strings are all kept. -/
theorem fromKeys_str (ss : List PyStr) (seen : List Key) (hnd : ss.Nodup)
    (hnew : ∀ s ∈ ss, Key.str s ∉ seen) :
    fromKeys (ss.map PyVal.str) seen = .ok (ss.map PyVal.str) := by
  induction ss generalizing seen with
  | nil => rfl
  | cons s ss ih =>
      rw [List.nodup_cons] at hnd
      have hrest : ∀ s' ∈ ss, Key.str s' ∉ Key.str s :: seen := by
        intro s' hs' hmem
        rcases List.mem_cons.mp hmem with heq | hmem
        · rw [Key.str.inj heq] at hs'
          exact hnd.1 hs'
        · exact hnew s' (List.mem_cons_of_mem _ hs') hmem
      rw [List.map_cons, fromKeys, hashKey]
      simp only [if_neg (hnew s (List.mem_cons_self ..)), ih _ hnd.2 hrest]
      rfl

theorem own_pubkey : cipher.pubkeyHex reference = some (pubkey 0) := rfl

/-- The keys of a submission in the crowd: all of them. -/
theorem params_crowd {n : Nat} (st : PeerStatus) (hn : 2 ≤ n) (hn' : n ≤ 255) :
    getThresholdParams reference cipher (crowd n st) =
      .ok (some ((n + 2) / 2, ((List.range (n + 1)).map pubkey).map PyVal.str)) := by
  have hvalues : (crowd n st).peers.values.map PeerInfo.encPubkey =
      (List.range n).map (fun i => PyVal.str (pubkey (i + 1))) := by
    rw [Dict.values, crowd, List.map_map, List.map_map]
    rfl
  have htruthy : ∀ v ∈ (List.range n).map (fun i => PyVal.str (pubkey (i + 1))),
      v.truthy = true := by
    intro v hv
    rcases List.mem_map.mp hv with ⟨i, _, hiv⟩
    rw [← hiv]
    exact truthy_pubkey (i + 1)
  have hall : PyVal.str (pubkey 0) :: (List.range n).map (fun i => PyVal.str (pubkey (i + 1))) =
      ((List.range (n + 1)).map pubkey).map PyVal.str := by
    rw [List.range_succ_eq_map, List.map_cons, List.map_cons, List.map_map, List.map_map]
    rfl
  have hnd : ((List.range (n + 1)).map pubkey).Nodup := by
    refine List.Nodup.map_on (fun i hi j hj hij => ?_) List.nodup_range
    rw [List.mem_range] at hi hj
    exact pubkey_injOn (by omega) (by omega) hij
  unfold getThresholdParams
  simp only [own_pubkey, hvalues, List.filter_eq_self.mpr htruthy, hall,
    fromKeys_str _ [] hnd (fun _ _ => List.not_mem_nil), List.length_map, List.length_range]
  rw [if_neg (by omega)]

open Classical in
/-- Two of the three keys are needed, and both others are of dead peers. -/
theorem too_few_alive : ∃ t keys,
    getThresholdParams reference cipher (crowd 2 .dead) = .ok (some (t, keys)) ∧
      ¬ t ≤ (keys.filter (fun v => decide (Belongs (pubkey 0) (crowd 2 .dead) v))).length := by
  have hparams := params_crowd (n := 2) .dead (by decide) (by decide)
  refine ⟨_, _, hparams, ?_⟩
  have hheld : ((crowd 2 .dead).heldKeys (pubkey 0)).card = 1 := by decide +kernel
  rw [length_belonging own_pubkey hparams, hheld]
  decide

open Classical in
/-- With both others alive there are enough. -/
theorem enough_alive :
    2 ≤ ((((List.range 3).map pubkey).map PyVal.str).filter
      (fun v => decide (Belongs (pubkey 0) (crowd 2 .alive) v))).length :=
  (satisfiable_iff reference cipher (crowd 2 .alive) (pubkey 0) own_pubkey 2 _
    (params_crowd .alive (by decide) (by decide))).mpr (by decide +kernel)

/-- A crowd of 255 others. The last of them is given the AES key of every
    submission. -/
theorem key_given_away : ∃ t keys,
    getThresholdParams reference cipher (crowd 255 .alive) = .ok (some (t, keys)) ∧
      (∀ rand, (rawShares rand keys t)[255]? = some (256, rand.aesKey)) ∧ ¬ FieldShares keys t := by
  have hlen : (((List.range 256).map pubkey).map PyVal.str).length = 256 := by
    rw [List.length_map, List.length_map, List.length_range]
  refine ⟨_, _, params_crowd .alive (by decide) (by decide),
    fun rand => share_256 rand (le_of_eq hlen.symm), fun hshares => ?_⟩
  exact hshares.nonzero zeros _ (List.mem_of_getElem? (share_256 zeros (le_of_eq hlen.symm))) rfl

/-- The shares of three keys are in the field. -/
theorem three_shares : FieldShares (((List.range 3).map pubkey).map PyVal.str) 2 :=
  (field_shares_iff reference cipher (crowd 2 .alive) (pubkey 0) own_pubkey 2 _
    (params_crowd .alive (by decide) (by decide))).mpr (by decide +kernel)

end Crowd

end WhisperNet
