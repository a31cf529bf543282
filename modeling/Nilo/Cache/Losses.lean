import Nilo.Cache.Memory
import Mathlib.Algebra.Ring.Int.Parity
import Mathlib.Tactic.Zify

/-!
# How a key is lost (`cache/store.zig`)

An entry that can be read is lost by a delete, a clear, its expiry, the ring's cursor or a full
bucket, and by no other call (`Store.kept_or_lost`). So two claims of one key that both report
`stored` have one of these between them, and a count that is not lost is the one the next add adds to
(`claims_and_counts`).
-/

namespace Nilo.Cache

open Text (Bytes)

/-! ## Integers as bytes -/

namespace Num

variable {t : Num} {v : Int}

theorem satAdd_mem (t : Num) (a b : Int) : t.min ≤ t.satAdd a b ∧ t.satAdd a b ≤ t.max := by
  have hle : t.min ≤ t.max := by
    have hpow : (0 : Int) < 2 ^ (t.bits - 1) := Int.pow_pos (by decide)
    have hpow' : (0 : Int) < 2 ^ t.bits := Int.pow_pos (by decide)
    rw [min, max]
    split_ifs <;> omega
  rw [satAdd]
  omega

/-- The low bits of a value's bytes are the value, modulo the type. -/
theorem readLe_asBytes (t : Num) (v : Int) :
    ((Mem.readLe (t.asBytes v) % 2 ^ t.bits : Nat) : Int) = v % 2 ^ t.bits := by
  have hpow : (256 : Nat) ^ t.size = 2 ^ (8 * t.size) := by
    rw [Nat.pow_mul]
  have hpos : (0 : Int) < 2 ^ (8 * t.size) := Int.pow_pos (by decide)
  have hnonneg : 0 ≤ v % 2 ^ (8 * t.size) := Int.emod_nonneg _ (Int.ne_of_gt hpos)
  have hlt : v % 2 ^ (8 * t.size) < 2 ^ (8 * t.size) := Int.emod_lt_of_pos _ hpos
  have hcast : (((v % 2 ^ (8 * t.size)).toNat : Nat) : Int) = v % 2 ^ (8 * t.size) :=
    Int.toNat_of_nonneg hnonneg
  have hsmall : (v % 2 ^ (8 * t.size)).toNat < 2 ^ (8 * t.size) := by
    zify
    rw [hcast]
    exact hlt
  rw [asBytes, Mem.readLe_writeLe, hpow, Nat.mod_eq_of_lt hsmall]
  push_cast
  rw [hcast]
  exact Int.emod_emod_of_dvd v (pow_dvd_pow 2 t.bits_le)

/-- A value of the type is read back as it was stored. -/
theorem ofBytes_asBytes (hmin : t.min ≤ v) (hmax : v ≤ t.max) : t.ofBytes (t.asBytes v) = v := by
  have hlow := readLe_asBytes t v
  have hpow : (0 : Int) < 2 ^ t.bits := Int.pow_pos (by decide)
  rw [min] at hmin
  rw [max] at hmax
  simp only [ofBytes, hlow]
  cases hsigned : t.signed with
  | false =>
    simp only [hsigned, if_false, Bool.false_eq_true, false_and] at hmin hmax ⊢
    exact Int.emod_eq_of_lt hmin (by omega)
  | true =>
    have hbits := t.bits_pos hsigned
    have hdouble : (2 : Int) ^ t.bits = 2 * 2 ^ (t.bits - 1) := by
      rw [← pow_succ', Nat.sub_add_cancel hbits]
    simp only [hsigned, if_true, true_and] at hmin hmax ⊢
    rcases Int.lt_or_le v 0 with hneg | hnonneg
    · have hmod : v % 2 ^ t.bits = v + 2 ^ t.bits := by
        rw [← Int.add_emod_right, Int.emod_eq_of_lt (by omega) (by omega)]
      rw [hmod, if_pos (by omega)]
      omega
    · rw [Int.emod_eq_of_lt hnonneg (by omega), if_neg (by omega)]

end Num

/-! ## One call -/

variable {hash : UInt32 → Bytes → UInt64} {l : Layout}

/-- The call tests the expiry of the entry by this clock. -/
def Op.tests (e : Entry) (now : UInt32) : Op → Prop
  | .putIfAbsent space key _ _ now' => e.isFor space key = true ∧ now' = now
  | .add _ _ space key _ now' => e.isFor space key = true ∧ now' = now
  | .get space key _ now' _ => e.isFor space key = true ∧ now' = now
  | _ => False

/-- The call is one that stores under the key. -/
def Op.stores (space : UInt32) (key : Bytes) : Op → Prop
  | .put space' key' _ _ _ => space' = space ∧ key' = key
  | .putIfAbsent space' key' _ _ _ => space' = space ∧ key' = key
  | .add _ _ space' key' _ _ => space' = space ∧ key' = key
  | _ => False

namespace Store

variable {st : Store l} {e : Entry} {op : Op}

variable (hash) in
/-- What makes a call lose an entry that could be read before it. -/
inductive Loss (st : Store l) (op : Op) (e : Entry) : Prop
  | expired (now : UInt32) (htests : op.tests e now) (h : e.fresh now = false)
  | deleted (h : op = .del e.space e.key)
  | cleared (h : op = .clear)
  | lapped (h : (st.shards (shardFor l (hash e.space e.key))).Lapped hash
      ((st.step hash op).1.shards (shardFor l (hash e.space e.key))) e)
  | displaced (h : (st.shards (shardFor l (hash e.space e.key))).Displaced hash
      ((st.step hash op).1.shards (shardFor l (hash e.space e.key))) e)

/-- The shard of an entry a call on another key may have changed. -/
theorem has_elsewhere {k : Fin l.shards} {s : Shard l.buckets}
    (hk : shardFor l (hash e.space e.key) ≠ k) (he : st.Has hash e) : (st.setShard k s).Has hash e := by
  rw [has_setShard, if_neg hk]
  exact he

/-- A write keeps an entry of another key, or the cursor or a full bucket takes it; of its own key
something can be read afterwards. -/
theorem write_kept {mode : Mode} {value : Bytes} (hsound : st.Sound hash) (space : UInt32)
    (key : Bytes) (ttl now : UInt32) (hlen : ∀ int, mode = .add int → value.length = int.size)
    (he : st.Has hash e) :
    (st.write hash mode space key value ttl now).1.Has hash e ∨
      (e.isFor space key = true ∧
        ∃ e', e'.isFor space key = true ∧
          (st.write hash mode space key value ttl now).1.Has hash e') ∨
      (st.shards (shardFor l (hash e.space e.key))).Lapped hash
        ((st.write hash mode space key value ttl now).1.shards (shardFor l (hash e.space e.key))) e ∨
      (st.shards (shardFor l (hash e.space e.key))).Displaced hash
        ((st.write hash mode space key value ttl now).1.shards (shardFor l (hash e.space e.key)))
        e := by
  by_cases hk : shardFor l (hash e.space e.key) = shardFor l (hash space key)
  · have hcases := Shard.write_cases (hsound (shardFor l (hash space key))) space key ttl now hlen
    rw [writes_eq] at hcases
    have hheld : (st.shards (shardFor l (hash space key))).Has hash e := by
      rw [← hk]
      exact he
    have hshard : (st.write hash mode space key value ttl now).1.shards
        (shardFor l (hash e.space e.key)) =
        ((st.shards (shardFor l (hash space key))).write (hash space key) mode space key value ttl
          now).1 := by
      rw [hk]
      exact (shards_setShard _ _ _ _).trans (if_pos rfl)
    have hhas {e' : Entry} (hk' : shardFor l (hash e'.space e'.key) = shardFor l (hash space key))
        (he' : ((st.shards (shardFor l (hash space key))).write (hash space key) mode space key value
          ttl now).1.Has hash e') : (st.write hash mode space key value ttl now).1.Has hash e' :=
      has_setShard.2 (by rwa [if_pos hk'])
    rw [hshard, hk]
    rcases hcases with ⟨-, hw⟩ | ⟨-, -, -, hw⟩ | ⟨-, -, -, hstores⟩
    · exact .inl (hhas hk (by rwa [hw]))
    · exact .inl (hhas hk (by rwa [hw]))
    · obtain ⟨hspace, hkey, -⟩ := Mode.entry_spec space key (expiryOf now ttl)
        (clockOf mode ttl now)
        ((st.shards (shardFor l (hash space key))).prior (hash space key) space key) hlen
      cases hfor : e.isFor space key with
      | true =>
        have hnew : (st.writes hash mode space key value ttl now).1.isFor space key = true :=
          Entry.isFor_iff.2 ⟨hspace, hkey⟩
        refine .inr (.inl ⟨rfl, _, hnew, hhas ?_ hstores.new⟩)
        obtain ⟨hspace, hkey⟩ := Entry.isFor_iff.1 hnew
        rw [hspace, hkey]
      | false =>
        have hother : e.isFor (st.writes hash mode space key value ttl now).1.space
            (st.writes hash mode space key value ttl now).1.key = false := by
          rw [writes, hspace, hkey]
          exact hfor
        obtain hkept | hlost := hstores.has e hheld hother
        · exact .inl (hhas hk hkept)
        · exact .inr (.inr hlost)
  · exact .inl (has_elsewhere hk he)

/-- **What could be read before a call can be read after it, or was lost for a reason.** A call that
stores under the key leaves something else to read. -/
theorem kept_or_lost (hsound : st.Sound hash) (op : Op) (he : st.Has hash e) :
    st.Loss hash op e ∨ (st.step hash op).1.Has hash e ∨
      (op.stores e.space e.key ∧
        ∃ e', e'.isFor e.space e.key = true ∧ (st.step hash op).1.Has hash e') := by
  have hwrite {mode : Mode} {space : UInt32} {key value : Bytes} {ttl now : UInt32}
      (hstep : (st.step hash op).1 = (st.write hash mode space key value ttl now).1)
      (hlen : ∀ int, mode = .add int → value.length = int.size)
      (hstores : space = e.space ∧ key = e.key → op.stores e.space e.key) :
      st.Loss hash op e ∨ (st.step hash op).1.Has hash e ∨
        (op.stores e.space e.key ∧
          ∃ e', e'.isFor e.space e.key = true ∧ (st.step hash op).1.Has hash e') := by
    rcases write_kept hsound space key ttl now hlen he with hkept | ⟨hfor, hnew⟩ | hlapped | hdisplaced
    · exact .inr (.inl (hstep ▸ hkept))
    · obtain ⟨hspace, hkey⟩ := Entry.isFor_iff.1 hfor
      rw [hspace, hkey]
      rw [hspace, hkey] at hstores
      exact .inr (.inr ⟨hstores ⟨rfl, rfl⟩, hstep ▸ hnew⟩)
    · exact .inl (.lapped (hstep ▸ hlapped))
    · exact .inl (.displaced (hstep ▸ hdisplaced))
  cases op with
  | put space key value ttl now => exact hwrite rfl (fun _ hno => nomatch hno) id
  | putIfAbsent space key value ttl now => exact hwrite rfl (fun _ hno => nomatch hno) id
  | add int delta space key ttl now => exact hwrite rfl (fun _ heq => asBytes_length heq) id
  | get space key room now luck =>
    have hlooks := Shard.get_looks (hsound (shardFor l (hash space key))) space key room now luck
    by_cases hk : shardFor l (hash e.space e.key) = shardFor l (hash space key)
    · have hheld : (st.shards (shardFor l (hash space key))).Has hash e := hk ▸ he
      rcases hlooks.has e hheld with hkept | hlapped | ⟨hfor, hdead⟩
      · exact .inr (.inl (has_setShard.2 (by rwa [if_pos hk])))
      · refine .inl (.lapped ?_)
        rw [hk]
        simp only [Store.step, shards_setShard, if_true]
        exact hlapped
      · exact .inl (.expired now ⟨hfor, rfl⟩ hdead)
    · exact .inr (.inl (has_elsewhere hk he))
  | promote space key way expect =>
    have hkeeps := Shard.promote_keeps (hsound (shardFor l (hash space key)))
      (bucketOf l.buckets (hash space key)) way expect
    by_cases hk : shardFor l (hash e.space e.key) = shardFor l (hash space key)
    · have hheld : (st.shards (shardFor l (hash space key))).Has hash e := hk ▸ he
      rcases hkeeps.has e hheld with hkept | hlapped
      · exact .inr (.inl (has_setShard.2 (by rwa [if_pos hk])))
      · refine .inl (.lapped ?_)
        rw [hk]
        simp only [Store.step, shards_setShard, if_true]
        exact hlapped
    · exact .inr (.inl (has_elsewhere hk he))
  | del space key =>
    obtain ⟨-, hdel⟩ := Shard.del_spec (hsound (shardFor l (hash space key))) space key
    by_cases hk : shardFor l (hash e.space e.key) = shardFor l (hash space key)
    · have hheld : (st.shards (shardFor l (hash space key))).Has hash e := hk ▸ he
      cases hfor : e.isFor space key with
      | true =>
        obtain ⟨rfl, rfl⟩ := Entry.isFor_iff.1 hfor
        exact .inl (.deleted rfl)
      | false =>
        refine .inr (.inl (has_setShard.2 ?_))
        rw [if_pos hk]
        exact (hdel e).2 ⟨hheld, hfor⟩
    · exact .inr (.inl (has_elsewhere hk he))
  | clear => exact .inl (.cleared rfl)

/-! ## Runs -/

variable (hash) in
/-- Some call of the run lost what could be read of the key. -/
def LostWithin (st : Store l) (ops : List Op) (space : UInt32) (key : Bytes) : Prop :=
  ∃ before op after e, ops = before ++ op :: after ∧ e.isFor space key = true ∧
    (st.run hash before).Has hash e ∧ (st.run hash before).Loss hash op e

variable {space : UInt32} {key : Bytes} {ops : List Op}

theorem LostWithin.cons (h : (st.step hash op).1.LostWithin hash ops space key) :
    st.LostWithin hash (op :: ops) space key := by
  obtain ⟨before, op', after, e, rfl, hfor, he, hloss⟩ := h
  exact ⟨op :: before, op', after, e, rfl, hfor, he, hloss⟩

theorem LostWithin.append (h : st.LostWithin hash ops space key) (more : List Op) :
    st.LostWithin hash (ops ++ more) space key := by
  obtain ⟨before, op', after, e, rfl, hfor, he, hloss⟩ := h
  exact ⟨before, op', after ++ more, e, by simp, hfor, he, hloss⟩

/-- A key that could be read can be read at the end of a run, or was lost in it; and as long as
nothing was stored under it, what is read is the same. -/
theorem kept_run (hsound : st.Sound hash) (ops : List Op) (he : st.Has hash e)
    (hfor : e.isFor space key = true) :
    st.LostWithin hash ops space key ∨
      ∃ e', e'.isFor space key = true ∧ (st.run hash ops).Has hash e' ∧
        ((∀ op ∈ ops, ¬ op.stores space key) → e' = e) := by
  induction ops generalizing st e with
  | nil => exact .inr ⟨e, hfor, he, fun _ => rfl⟩
  | cons op rest ih =>
    obtain ⟨rfl, rfl⟩ := Entry.isFor_iff.1 hfor
    rcases kept_or_lost hsound op he with hloss | hkept | ⟨hstores, e', hfor', he'⟩
    · exact .inl ⟨[], op, rest, e, rfl, hfor, he, hloss⟩
    · obtain hlost | ⟨e', hfor', he', hsame⟩ := ih (hsound.step op) hkept hfor
      · exact .inl hlost.cons
      · refine .inr ⟨e', hfor', he', fun hnone => hsame ?_⟩
        exact fun op' hmem => hnone op' (List.mem_cons_of_mem _ hmem)
    · obtain hlost | ⟨e'', hfor'', he'', -⟩ := ih (hsound.step op) he' hfor'
      · exact .inl hlost.cons
      · exact .inr ⟨e'', hfor'', he'', fun hnone => absurd hstores (hnone op List.mem_cons_self)⟩

/-- A claim is stored exactly where nothing that can be read of its key has time left. -/
theorem claim_stored (hsound : st.Sound hash) {value : Bytes} {ttl now : UInt32}
    (hstored : (st.step hash (.putIfAbsent space key value ttl now)).2 = .claim .stored) :
    (∀ e, st.Has hash e → e.isFor space key = true → e.fresh now = false) ∧
      ∃ e, e.isFor space key = true ∧
        (st.step hash (.putIfAbsent space key value ttl now)).1.Has hash e := by
  have hlen (int : Num) (hno : Mode.claim = Mode.add int) : value.length = int.size := nomatch hno
  have hcases := Shard.write_cases (hsound (shardFor l (hash space key))) space key ttl now hlen
  have hanswer : ((st.shards (shardFor l (hash space key))).write (hash space key) .claim space key
      value ttl now).2.1 = .stored := Answer.claim.inj hstored
  rcases hcases with ⟨-, hw⟩ | ⟨-, -, -, hw⟩ | ⟨-, hclaim, -, hstores⟩
  · rw [hw] at hanswer
    cases hanswer
  · rw [hw] at hanswer
    cases hanswer
  · refine ⟨fun e he hfor => hclaim rfl e ((has_iff hfor).1 he) hfor,
      ((st.shards (shardFor l (hash space key))).writes (hash space key) .claim space key value ttl
        now).1, Entry.isFor_iff.2 ⟨rfl, rfl⟩, has_setShard.2 ?_⟩
    refine (if_pos ?_).mpr hstores.new
    rfl

/-- What an add does to a count that can be read and has time left. -/
theorem add_count (hsound : st.Sound hash) {int : Num} {now : UInt32} (he : st.Has hash e)
    (hfor : e.isFor space key = true) (hfresh : e.fresh now = true)
    (hsize : e.value.length = int.size) (delta : int.Value) (ttl : UInt32) :
    (st.step hash (.add int delta space key ttl now)).2 =
        .sum (some (int.satAdd (int.ofBytes e.value) delta.1)) ∧
      (st.step hash (.add int delta space key ttl now)).1.Has hash
        ⟨e.expires, space, key, int.asBytes (int.satAdd (int.ofBytes e.value) delta.1)⟩ := by
  obtain ⟨rfl, rfl⟩ := Entry.isFor_iff.1 hfor
  have hheld : (st.shards (shardFor l (hash e.space e.key))).Has hash e := he
  have hlen (int' : Num) (heq : Mode.add int = Mode.add int') :
      (int.asBytes delta.1).length = int'.size := asBytes_length heq
  have hfits : entryFits (st.shards (shardFor l (hash e.space e.key))).ring.length e.key.length
      (int.asBytes delta.1).length = true := by
    obtain ⟨b, i, w, hh, rfl⟩ := hheld
    rw [Num.length_asBytes, ← hsize]
    exact (hsound _).laid.takes w hh.names.mem
  obtain ⟨hw, hstores⟩ := write_stored hsound e.space e.key ttl now hlen (fun hno => nomatch hno)
    hfits
  have hprior := (Shard.prior_eq_some (hsound _)).2 ⟨hheld, hfor⟩
  have hdelta := Num.ofBytes_asBytes delta.2.1 delta.2.2
  have hnow := @clockOf_of_ne_put (.add int) (fun hno => nomatch hno) ttl now
  have hwrites : st.writes hash (.add int) e.space e.key (int.asBytes delta.1) ttl now =
      (⟨e.expires, e.space, e.key, int.asBytes (int.satAdd (int.ofBytes e.value) delta.1)⟩,
        int.satAdd (int.ofBytes e.value) delta.1) := by
    rw [writes, hprior, hnow, Mode.entry]
    simp only [Option.filter_some, hfresh, hsize, and_self, decide_true, if_true, hdelta]
  rw [hwrites] at hw hstores
  constructor
  · simp only [Store.step]
    rw [hw]
    rfl
  · refine has_setShard.2 ?_
    rw [if_pos rfl]
    exact hstores.new

/-- **A claim is had once, and a count adds up.** Between two claims of a key that both report
`stored`, what was there of it expired, was deleted or cleared, or was evicted. An add on a count
that has time left keeps its expiry and stores the saturating sum, and unless that is lost it is what
the next lookup answers and the next add adds to. -/
theorem claims_and_counts (ops : List Op) (space : UInt32) (key : Bytes) (more : List Op) :
    let st := (Store.init l).run hash ops
    (∀ value ttl now value' ttl' now',
      (st.step hash (.putIfAbsent space key value ttl now)).2 = .claim .stored →
      (((st.step hash (.putIfAbsent space key value ttl now)).1.run hash more).step hash
        (.putIfAbsent space key value' ttl' now')).2 = .claim .stored →
      (st.step hash (.putIfAbsent space key value ttl now)).1.LostWithin hash
        (more ++ [.putIfAbsent space key value' ttl' now']) space key) ∧
    (∀ (int : Num) (delta : int.Value) ttl now e, st.Has hash e → e.isFor space key = true →
      e.fresh now = true → e.value.length = int.size →
      let sum := int.satAdd (int.ofBytes e.value) delta.1
      let added := st.step hash (.add int delta space key ttl now)
      added.2 = .sum (some sum) ∧ added.1.Has hash ⟨e.expires, space, key, int.asBytes sum⟩ ∧
        ((∀ op ∈ more, ¬ op.stores space key) →
          added.1.LostWithin hash more space key ∨
            (∀ room now' luck, e.fresh now' = true → int.size ≤ room →
              ((added.1.run hash more).step hash (.get space key room now' luck)).2 =
                .value (some (int.asBytes sum))) ∧
            (∀ (delta' : int.Value) ttl' now', e.fresh now' = true →
              ((added.1.run hash more).step hash (.add int delta' space key ttl' now')).2 =
                .sum (some (int.satAdd sum delta'.1))))) := by
  intro st
  have hsound : st.Sound hash := (init_sound l).run ops
  constructor
  · intro value ttl now value' ttl' now' hfirst hsecond
    obtain ⟨-, e, hfor, he⟩ := claim_stored hsound hfirst
    have hsound' := hsound.step (.putIfAbsent space key value ttl now)
    obtain hlost | ⟨e', hfor', he', -⟩ := kept_run hsound' more he hfor
    · exact hlost.append _
    · have hdead := (claim_stored (hsound'.run more) hsecond).1 e' he' hfor'
      exact ⟨more, _, [], e', rfl, hfor', he', .expired now' ⟨hfor', rfl⟩ hdead⟩
  · intro int delta ttl now e he hfor hfresh hsize sum added
    obtain ⟨hsum, hadded⟩ := add_count hsound he hfor hfresh hsize delta ttl
    refine ⟨hsum, hadded, fun hnone => ?_⟩
    have hself : (⟨e.expires, space, key, int.asBytes sum⟩ : Entry).isFor space key = true :=
      Entry.isFor_iff.2 ⟨rfl, rfl⟩
    have hrun := ((hsound.step (.add int delta space key ttl now)).run more)
    obtain hlost | ⟨e', -, he', hsame⟩ :=
      kept_run (hsound.step (.add int delta space key ttl now)) more hadded hself
    · exact .inl hlost
    · rw [hsame hnone] at he'
      refine .inr ⟨?_, ?_⟩
      · intro room now' luck hfresh' hroom
        have hroom : (int.asBytes sum).length ≤ room := by rwa [Num.length_asBytes]
        have hget := Shard.get_of_has (hrun _) luck he' hself hfresh' hroom
        exact congrArg Answer.value hget
      · intro delta' ttl' now' hfresh'
        have hnext := (add_count hrun he' hself hfresh' (Num.length_asBytes int sum) delta' ttl').1
        have hmem := int.satAdd_mem (int.ofBytes e.value) delta.1
        rw [hnext, Num.ofBytes_asBytes hmem.1 hmem.2]

theorem claims_and_counts_example :
    let l : Layout := ⟨1, 1, 4096, ⟨0, by decide⟩, by decide, by decide, by decide⟩
    let int : Num := ⟨false, 64, 8, by decide, by decide⟩
    let st := (Store.init l).run (fun _ _ => 0) [.add int ⟨5, by decide⟩ 1 [2] 0 0]
    (st.step (fun _ _ => 0) (.add int ⟨3, by decide⟩ 1 [2] 0 0)).2 = .sum (some 8) := by
  intro l int st
  have hfits : entryFits (List.replicate 4096 (0 : UInt8)).length 1 (int.asBytes 5).length = true := by
    rw [List.length_replicate, Num.length_asBytes]
    decide
  have hstores := (@write_stored (fun _ _ => 0) l (Store.init l) (.add int) (int.asBytes 5)
    (init_sound l) 1 [2] 0 0 (fun _ heq => asBytes_length heq) (fun hno => nomatch hno) hfits).2
  have hfive : int.ofBytes (int.asBytes 5) = 5 := Num.ofBytes_asBytes (by decide) (by decide)
  have hwrites : (Store.init l).writes (fun _ _ => 0) (.add int) 1 [2] (int.asBytes 5) 0 0 =
      (⟨0, 1, [2], int.asBytes (int.ofBytes (int.asBytes 5))⟩, int.ofBytes (int.asBytes 5)) := by
    rfl
  rw [hwrites, hfive] at hstores
  have he : st.Has (fun _ _ => 0) ⟨0, 1, [2], int.asBytes 5⟩ := by
    refine has_setShard.2 ((if_pos ?_).mpr hstores.new)
    rfl
  have hcount := ((claims_and_counts [.add int ⟨5, by decide⟩ 1 [2] 0 0] 1 [2] []).2 int
    ⟨3, by decide⟩ 0 0 _ he rfl rfl (Num.length_asBytes int 5)).1
  rw [hfive] at hcount
  exact hcount

end Store

end Nilo.Cache
