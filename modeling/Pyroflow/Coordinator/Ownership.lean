import Pyroflow.Coordinator.Redis
import Pyroflow.Lib.Lts

/-!
# What a session owns on Redis

`_owned_registrations` is what a `RedisListenerCoordinator` knows of its own
registrations: `stop` deletes what it tells. It is not kept in step with Redis,
as the entries of other sessions' cancellations stay, but it covers what the
session has there: a key that holds a token in Redis is recorded by the session
that drew it (`Sessions.Owned`). So `stop` removes the session's registrations, and
only them (`stop_removes_own`).

`stop` runs `LUA_BULK_UNREGISTER_SCRIPT` on two parallel arrays, made of the items
of the dictionary (`luaBulkUnregister`); that comes to the deletion of each key that
still holds the token recorded for it (`luaBulkUnregister_eq`).
-/

namespace Pyroflow

variable {Sess Token : Type}

/-! ### The script -/

/-- The loop of `LUA_BULK_UNREGISTER_SCRIPT` on the keys from the `i`th on, with the
    count of those deleted. -/
def luaBulkUnregister [DecidableEq Token] (argv : List Token) (i : ℕ) :
    List ListenerKey → ℕ × (ListenerKey → Option Token) → ℕ × (ListenerKey → Option Token)
  | [], acc => acc
  | key :: keys, (deletedCount, redis) =>
    match redis key, argv[i]? with
    | some currentVal, some expectedVal =>
      if currentVal = expectedVal then
        luaBulkUnregister argv (i + 1) keys (deletedCount + 1, Function.update redis key none)
      else luaBulkUnregister argv (i + 1) keys (deletedCount, redis)
    | _, _ => luaBulkUnregister argv (i + 1) keys (deletedCount, redis)

section Script

variable [DecidableEq Token] (items pre : List (ListenerKey × Token)) (n : ℕ)
  (redis : ListenerKey → Option Token) {key : ListenerKey} {t : Token}

/-- The arrays line up: the script deletes the keys that hold the token of their own
    item. -/
theorem luaBulkUnregister_apply :
    (luaBulkUnregister ((pre ++ items).map Prod.snd) pre.length (items.map Prod.fst)
      (n, redis)).2 key = some t ↔ redis key = some t ∧ (key, t) ∉ items := by
  -- By induction on the items still to come; those before them keep the index of the loop
  -- in step with the second array.
  induction items generalizing pre n redis with
  | nil => simp [luaBulkUnregister]
  | cons item items ih =>
    obtain ⟨k, a⟩ := item
    have harg : ((pre ++ (k, a) :: items).map Prod.snd)[pre.length]? = some a := by simp
    have hpre : pre ++ (k, a) :: items = (pre ++ [(k, a)]) ++ items := by simp
    have ih := ih (pre ++ [(k, a)])
    rw [List.length_append, List.length_singleton, ← hpre] at ih
    simp only [List.map_cons, luaBulkUnregister, harg]
    -- An item whose key does not hold its token takes nothing away.
    have hskip (h : redis k ≠ some a) : redis key = some t ∧ (key, t) ∉ items ↔
        redis key = some t ∧ (key, t) ∉ (k, a) :: items := by
      refine and_congr_right fun hkey => ?_
      rw [List.mem_cons, Prod.mk.injEq, not_or]
      exact (and_iff_right fun ⟨hk, ht⟩ => h (hk ▸ ht ▸ hkey)).symm
    cases hk : redis k with
    | none => exact (ih ..).trans (hskip (by simp [hk]))
    | some currentVal =>
      simp only
      split
      · next ha =>
        subst ha
        refine (ih ..).trans ?_
        by_cases hkey : key = k
        · subst hkey
          rw [Function.update_self]
          refine iff_of_false (by simp) fun ⟨h, hmem⟩ => ?_
          exact hmem (Option.some.inj (hk.symm.trans h) ▸ List.mem_cons_self)
        · simp [hkey]
      · next ha => exact (ih ..).trans (hskip fun h => ha (Option.some.inj (hk.symm.trans h)))

end Script

namespace RedisListenerCoordinator

variable [DecidableEq Token] [DecidableEq Sess] {r r' : RedisListenerCoordinator Sess Token}
  {σ σ' : Sess} {key key' : ListenerKey} {t t' uuid : Token}

/-- The dictionary with these items. -/
def Items (dict : ListenerKey → Option Token) (items : List (ListenerKey × Token)) : Prop :=
  ∀ key t, (key, t) ∈ items ↔ dict key = some t

/-- After `stop`, a key holds what it held, unless that is the token recorded for it. -/
theorem redis_stop :
    (r.stop σ).redis key = some t ↔
      r.redis key = some t ∧ r.ownedRegistrations σ key ≠ some t := by
  change (r.bulkUnregister (r.ownedRegistrations σ)).current key = some t ↔ _
  simp only [bulkUnregister]
  split
  · next h =>
    refine iff_of_false nofun fun ⟨hr, ho⟩ => ho (h.2.trans hr)
  · next h =>
    refine ⟨fun hr => ⟨hr, fun ho => h ⟨by simp [hr], ho.trans hr.symm⟩⟩, And.left⟩

/-- What `stop` does to Redis is what the script does, given the items of the record of
    the session. -/
theorem redis_stop_eq_script {items : List (ListenerKey × Token)}
    (h : Items (r.ownedRegistrations σ) items) :
    (r.stop σ).redis = (luaBulkUnregister (items.map Prod.snd) 0 (items.map Prod.fst)
      (0, r.redis)).2 := by
  funext key
  refine Option.ext fun t => ?_
  rw [redis_stop]
  have := @luaBulkUnregister_apply _ _ items [] 0 r.redis key t
  rw [List.nil_append, List.length_nil] at this
  rw [this, h key t]

omit [DecidableEq Token] in
theorem own_self {v : Option Token} : r.own σ key v σ key = v := by
  rw [own, Function.update_self, Function.update_self]

omit [DecidableEq Token] in
theorem own_of_ne {v : Option Token} (h : ¬ (σ' = σ ∧ key' = key)) :
    r.own σ key v σ' key' = r.ownedRegistrations σ' key' := by
  rw [own]
  by_cases hσ : σ' = σ
  · subst hσ
    rw [Function.update_self, Function.update_of_ne fun hkey => h ⟨rfl, hkey⟩]
  · rw [Function.update_of_ne hσ]

omit [DecidableEq Token] in
/-- A record that is there after one was popped is another one. -/
theorem of_own_none (h : r.own σ key none σ' key' = some t) :
    ¬ (σ' = σ ∧ key' = key) ∧ r.ownedRegistrations σ' key' = some t := by
  by_cases hk : σ' = σ ∧ key' = key
  · obtain ⟨rfl, rfl⟩ := hk
    rw [own_self] at h
    exact absurd h nofun
  · exact ⟨hk, own_of_ne hk ▸ h⟩

omit [DecidableEq Token] in
/-- What a registration changes. -/
theorem eq_of_register {h : uuid ∉ r.drawn} (hr : r.register σ key uuid h = some r') :
    r'.redis = Function.update r.redis key (some uuid) ∧
      r'.ownedRegistrations = r.own σ key (some uuid) ∧ r'.drawn = insert uuid r.drawn := by
  rw [register] at hr
  split at hr
  · cases hr
  · cases hr
    exact ⟨rfl, rfl, rfl⟩

/-! ### The operations that remove registrations -/

/-- Registrations are removed, and what a session forgets has left Redis. -/
structure Forgets (r r' : RedisListenerCoordinator Sess Token) : Prop where
  redis : ∀ {key t}, r'.redis key = some t → r.redis key = some t
  owned : ∀ {σ key t}, r'.ownedRegistrations σ key = some t → r.ownedRegistrations σ key = some t
  keeps : ∀ {σ key t}, r'.redis key = some t → r.ownedRegistrations σ key = some t →
    r'.ownedRegistrations σ key = some t
  drawn : r'.drawn = r.drawn

omit [DecidableEq Token] in
/-- The key is deleted, and its record popped. -/
theorem Forgets.of_revoke (hr : r'.redis = (r.view.revoke key).current)
    (ho : r'.ownedRegistrations = r.own σ key none) (hd : r'.drawn = r.drawn) : Forgets r r' where
  redis h := (TokenRegistry.of_revoke (hr ▸ h)).2
  owned h := (of_own_none (ho ▸ h)).2
  keeps h h' := by
    rw [ho, own_of_ne fun hk => (TokenRegistry.of_revoke (hr ▸ h)).1 hk.2]
    exact h'
  drawn := hd

omit [DecidableEq Token] in
theorem forgets_cancel : Forgets r (r.cancel σ key).2 := by
  rw [cancel]
  split <;> exact .of_revoke rfl rfl rfl

/-- Given an id, the record is popped if it is that of the id, and then so is the
    registration. -/
theorem forgets_unregister {id : Option Token} : Forgets r (r.unregister σ key id).2 := by
  cases id with
  | none => exact .of_revoke rfl rfl rfl
  | some cId =>
    have howned : (r.unregister σ key (some cId)).2.ownedRegistrations =
        if r.ownedRegistrations σ key = some cId then r.own σ key none
        else r.ownedRegistrations := rfl
    refine ⟨fun h => TokenRegistry.of_withdraw h, fun h => ?_, fun {σ' key' t} h h' => ?_,
      TokenRegistry.issued_withdraw⟩
    · -- The record is popped, or put back where it was.
      rw [howned] at h
      split at h
      · exact (of_own_none h).2
      · exact h
    · -- What is left in Redis under the key is not the token withdrawn, so its record stays.
      rw [howned]
      split
      · next ho =>
        rw [own_of_ne]
        · exact h'
        · rintro ⟨rfl, rfl⟩
          obtain rfl := Option.some.inj (ho.symm.trans h')
          exact TokenRegistry.withdraw_self_ne h
      · exact h'

theorem forgets_stop : Forgets r (r.stop σ) where
  redis h := (redis_stop.1 h).1
  owned {σ' key t} h := by
    by_cases hσ : σ' = σ
    · simp [stop, advance, hσ] at h
    · simpa [stop, advance, Function.update_of_ne hσ] using h
  keeps {σ' key t} h h' := by
    have hσ : σ' ≠ σ := by
      rintro rfl
      exact (redis_stop.1 h).2 h'
    simpa [stop, advance, Function.update_of_ne hσ] using h'
  drawn := rfl

end RedisListenerCoordinator

/-! ### The sessions -/

/-- The sessions on one Redis, with the session that each token was issued by. -/
structure Sessions (Sess Token : Type) where
  coordinator : RedisListenerCoordinator Sess Token
  issuer : Token → Option Sess

/-- The calls of the sessions. -/
inductive SessionCall (Sess Token : Type)
  | register (σ : Sess) (key : ListenerKey) (uuid : Token)
  | unregister (σ : Sess) (key : ListenerKey) (coordinatorId : Option Token)
  | cancel (σ : Sess) (key : ListenerKey)
  | stop (σ : Sess)

namespace Sessions

variable [DecidableEq Sess] [DecidableEq Token]

/-- The steps of the sessions, each a call. -/
inductive Step (s : Sessions Sess Token) :
    SessionCall Sess Token → Sessions Sess Token → Prop
  | register {σ key uuid r'} (fresh : uuid ∉ s.coordinator.drawn)
      (registered : s.coordinator.register σ key uuid fresh = some r') :
      Step s (.register σ key uuid) ⟨r', Function.update s.issuer uuid (some σ)⟩
  /-- `register` raises `KeyError`. -/
  | registerFails {σ key uuid} (fresh : uuid ∉ s.coordinator.drawn)
      (fails : s.coordinator.register σ key uuid fresh = none) :
      Step s (.register σ key uuid) s
  | unregister {σ key id} :
      Step s (.unregister σ key id) { s with coordinator := (s.coordinator.unregister σ key id).2 }
  | cancel {σ key} :
      Step s (.cancel σ key) { s with coordinator := (s.coordinator.cancel σ key).2 }
  | stop {σ} : Step s (.stop σ) { s with coordinator := s.coordinator.stop σ }

variable (Sess Token) in
/-- The sessions, as a transition system: at first, nothing is registered. -/
def lts : Lts (Sessions Sess Token) (SessionCall Sess Token) where
  init s := s = ⟨.empty, fun _ => none⟩
  step := Step

/-- A token in Redis is recorded by the session that it was issued by, and a session
    records its own tokens only. -/
structure Owned (s : Sessions Sess Token) : Prop where
  redis : ∀ {key t}, s.coordinator.redis key = some t →
    ∃ σ, s.issuer t = some σ ∧ s.coordinator.ownedRegistrations σ key = some t
  owned : ∀ {σ key t}, s.coordinator.ownedRegistrations σ key = some t →
    s.issuer t = some σ ∧ t ∈ s.coordinator.drawn

variable {s s' : Sessions Sess Token} {l : SessionCall Sess Token}

omit [DecidableEq Sess] [DecidableEq Token] in
theorem Owned.forgets (h : s.Owned) {r' : RedisListenerCoordinator Sess Token}
    (hf : s.coordinator.Forgets r') : Owned ⟨r', s.issuer⟩ where
  redis hr := by
    obtain ⟨σ, hi, ho⟩ := h.redis (hf.redis hr)
    exact ⟨σ, hi, hf.keeps hr ho⟩
  owned ho := ⟨(h.owned (hf.owned ho)).1, hf.drawn ▸ (h.owned (hf.owned ho)).2⟩

theorem Step.owned (hst : Step s l s') (h : s.Owned) : s'.Owned := by
  cases hst with
  | @register σ key uuid r' fresh registered =>
    obtain ⟨hr, ho, hd⟩ := RedisListenerCoordinator.eq_of_register registered
    have hne : ∀ t ∈ s.coordinator.drawn, Function.update s.issuer uuid (some σ) t = s.issuer t :=
      fun t ht => Function.update_of_ne (ne_of_mem_of_not_mem ht fresh) ..
    refine ⟨fun {key' t} hk => ?_, fun {σ' key' t} hk => ?_⟩
    · rw [hr] at hk
      rw [ho]
      -- The key registered is recorded by the session, under the token just drawn.
      by_cases hkey : key' = key
      · subst hkey
        obtain rfl : uuid = t := by simpa using hk
        exact ⟨σ, Function.update_self .., RedisListenerCoordinator.own_self⟩
      · -- The token of another key was drawn before, so its issuer is who it was.
        rw [Function.update_of_ne hkey] at hk
        obtain ⟨σ', hi, ho'⟩ := h.redis hk
        refine ⟨σ', (hne t (h.owned ho').2).trans hi, ?_⟩
        rw [RedisListenerCoordinator.own_of_ne fun h => hkey h.2]
        exact ho'
    · rw [ho] at hk
      rw [hd]
      by_cases hkey : σ' = σ ∧ key' = key
      · obtain ⟨rfl, rfl⟩ := hkey
        rw [RedisListenerCoordinator.own_self, Option.some.injEq] at hk
        subst hk
        exact ⟨Function.update_self .., Set.mem_insert ..⟩
      · rw [RedisListenerCoordinator.own_of_ne hkey] at hk
        obtain ⟨hi, ht⟩ := h.owned hk
        exact ⟨(hne t ht).trans hi, Set.mem_insert_of_mem _ ht⟩
  | registerFails => exact h
  | unregister => exact h.forgets RedisListenerCoordinator.forgets_unregister
  | cancel => exact h.forgets RedisListenerCoordinator.forgets_cancel
  | stop => exact h.forgets RedisListenerCoordinator.forgets_stop

theorem owned_of_reachable (h : (lts Sess Token).Reachable s) : s.Owned := by
  refine h.invariant ?_ fun _ _ _ h _ hst => hst.owned h
  rintro _ rfl
  exact ⟨nofun, nofun⟩

/-- A stopping session removes its own registrations and nobody else's. A key holding a
    token of a session in Redis is recorded by that session. So, when a session has
    stopped, no key holds a token of it, and the keys hold the tokens of the others as they
    did before. What `stop` does to Redis is what the script does to it, given the
    items of the record in two parallel arrays. -/
theorem stop_removes_own (h : (lts Sess Token).Reachable s) :
    (∀ key t σ, s.coordinator.redis key = some t → s.issuer t = some σ →
      s.coordinator.ownedRegistrations σ key = some t) ∧
    ∀ σ s', Step s (.stop σ) s' →
      (∀ key t, s'.coordinator.redis key = some t → s'.issuer t ≠ some σ) ∧
      (∀ key t, s.issuer t ≠ some σ →
        (s'.coordinator.redis key = some t ↔ s.coordinator.redis key = some t)) ∧
      ∀ items, RedisListenerCoordinator.Items (s.coordinator.ownedRegistrations σ) items →
        s'.coordinator.redis = (luaBulkUnregister (items.map Prod.snd) 0 (items.map Prod.fst)
          (0, s.coordinator.redis)).2 := by
  have ho := owned_of_reachable h
  have hrec : ∀ key t σ, s.coordinator.redis key = some t → s.issuer t = some σ →
      s.coordinator.ownedRegistrations σ key = some t := by
    intro key t σ hr hi
    obtain ⟨σ', hi', hown⟩ := ho.redis hr
    obtain rfl := Option.some.inj (hi.symm.trans hi')
    exact hown
  refine ⟨hrec, fun σ s' hst => ?_⟩
  cases hst
  refine ⟨fun key t hr hi => ?_, fun key t hi => ?_, fun items hitems => ?_⟩
  · obtain ⟨hr, hne⟩ := RedisListenerCoordinator.redis_stop.1 hr
    exact hne (hrec key t σ hr hi)
  · rw [RedisListenerCoordinator.redis_stop]
    exact and_iff_left fun hown => hi (ho.owned hown).1
  · exact RedisListenerCoordinator.redis_stop_eq_script hitems

/-- A key passes from one session to another one, and the first one, which still records
    its own token for it, stops. -/
theorem stop_removes_own_passed : ∃ s s' : Sessions ℕ ℕ, Step s (.stop 0) s' ∧
    s.coordinator.ownedRegistrations 0 ⟨1, none, none⟩ = some 10 ∧
    s'.coordinator.redis ⟨1, none, none⟩ = some 20 := by
  have h₀ : (lts ℕ ℕ).Reachable ⟨.empty, fun _ => none⟩ := .init rfl
  have h₁ := h₀.tail (l := SessionCall.register 0 ⟨1, none, none⟩ 10) trivial
    (.register (Set.notMem_empty _) rfl)
  have h₂ := h₁.tail (l := SessionCall.cancel 1 ⟨1, none, none⟩) trivial .cancel
  have h₃ := h₂.tail (l := SessionCall.register 1 ⟨1, none, none⟩ 20) trivial
    (.register (by rintro (⟨⟨⟩⟩ | ⟨⟨⟩⟩)) rfl)
  obtain ⟨s, h, ho, hr, hi⟩ : ∃ s, (lts ℕ ℕ).Reachable s ∧
      s.coordinator.ownedRegistrations 0 ⟨1, none, none⟩ = some 10 ∧
      s.coordinator.redis ⟨1, none, none⟩ = some 20 ∧ s.issuer 20 = some 1 :=
    ⟨_, h₃, rfl, rfl, rfl⟩
  exact ⟨s, _, .stop, ho, (((stop_removes_own h).2 0 _ .stop).2.1 _ 20 (by simp [hi])).2 hr⟩

end Sessions

end Pyroflow
