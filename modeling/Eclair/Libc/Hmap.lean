import Eclair.Basic
import Mathlib.Data.List.Dedup

/-!
# Eclair.Libc.Hmap

The hash map of `ec/hmap.h`.

A map is a chain of entries behind a head entry that holds no value.  The
memory is the list of the entries in the order they were allocated, and an
entry's address is its position in it: the head is at `0`.  `ecHmapSet` and
`ecHmapGet` walk the chain with fuel; a walk that returns at no fuel does
not return.

* `Hmap.finMap` — what the map is for: a finite map of the keys;
* `Hmap.Chain` — the entries behind a pointer, up to the null pointer;
* `Hmap.refinesMap_iff` — when a sequence of sets is that finite map.
-/

namespace Eclair

/-! ## hashes -/

/-- `(uint32_t)c`: a `char` is signed. -/
def charU32 (c : UInt8) : Nat := if c < 128 then c.toNat else 2 ^ 32 - 256 + c.toNat

/-- `ec_hmap_hashtpow`. -/
def ecHmapHashtpow (x : Nat) : Nat → Nat
  | 0 => 1
  | y + 1 => u32 (ecHmapHashtpow x y * x)

/-- The loop of `ec_hmap_strhash` and the last character behind it. -/
def hashLoop : Nat → Bytes → Nat
  | res, [] => res
  | res, [c] => u32 (res + charU32 c)
  | res, c :: c' :: s =>
      hashLoop (u32 (res + u32 (charU32 c * ecHmapHashtpow 31 (s.length + 1)))) (c' :: s)

/-- `ec_hmap_strhash`. -/
def ecHmapStrhash (s : Bytes) : Nat := hashLoop 0 s

/-! ## entries -/

/-- `struct ec_hmap_<name>`: what the setter writes is `val`. -/
structure HmapEnt (V : Type*) where
  key : Nat
  next : Option Nat
  val : V
  deriving DecidableEq, Repr

/-- The allocated entries. -/
abbrev Hmap (V : Type*) := List (HmapEnt V)

variable {U V : Type*}

/-- `ec_hmap_init`: `malloc` leaves the value of the head as it was. -/
def ecHmapInit (junk : V) : Hmap V := [⟨0, none, junk⟩]

/-- The search of both operations: the entry before the one found, and the
one found or the null pointer at the end. -/
def hmapFind (m : Hmap V) (hkey : Nat) : Nat → Nat → Option Nat → Option (Nat × Option Nat)
  | 0, _, _ => none
  | _ + 1, prev, none => some (prev, none)
  | fuel + 1, prev, some cur => (m[cur]?).bind fun e =>
      if e.key = hkey then some (prev, some cur) else hmapFind m hkey fuel cur e.next

/-- The new entry of `_ec_hmap_set`: a copy of the head under the new key,
linked behind `prev`. -/
def hmapInsert (m : Hmap V) (hkey prev : Nat) (head : HmapEnt V) : Hmap V :=
  (m ++ [{ head with key := hkey }]).modify prev fun e => { e with next := some m.length }

/-- `_ec_hmap_set`. -/
def ecHmapSet (setter : U → V) (fuel : Nat) (m : Hmap V) (key : Bytes) (val : U) :
    Option (Hmap V) :=
  (m[0]?).bind fun head =>
    (hmapFind m (ecHmapStrhash key) fuel 0 head.next).map fun p =>
      match p.2 with
      | some cur => m.modify cur fun e => { e with val := setter val }
      | none => (hmapInsert m (ecHmapStrhash key) p.1 head).modify m.length
          fun e => { e with val := setter val }

/-- `ec_hmap_get`: the outer `none` is a search that does not return. -/
def ecHmapGet (fuel : Nat) (m : Hmap V) (key : Bytes) : Option (Option Nat) :=
  (m[0]?).bind fun head => (hmapFind m (ecHmapStrhash key) fuel 0 head.next).map (·.2)

/-- A sequence of sets. -/
def ecHmapSets (setter : U → V) (fuel : Nat) : Hmap V → List (Bytes × U) → Option (Hmap V)
  | m, [] => some m
  | m, kv :: sets =>
      (ecHmapSet setter fuel m kv.1 kv.2).bind fun m' => ecHmapSets setter fuel m' sets

namespace Hmap

/-! ## finite maps -/

/-- A set on a finite map. -/
def finSet (f : Bytes → Option U) (kv : Bytes × U) : Bytes → Option U :=
  Function.update f kv.1 (some kv.2)

/-- The finite map that a sequence of sets describes. -/
def finMap (sets : List (Bytes × U)) : Bytes → Option U := sets.foldl finSet fun _ => none

/-- The entries from a pointer up to the null pointer. -/
def Chain (m : Hmap V) : Option Nat → List Nat → Prop
  | p, [] => p = none
  | p, c :: cs => p = some c ∧ ∃ e, m[c]? = some e ∧ Chain m e.next cs

/-- The chain is acyclic, and every key set has one entry in it. -/
def OneEntryEach (m : Hmap V) (keys : List Bytes) : Prop :=
  ∃ head cs, m[0]? = some head ∧ Chain m head.next cs ∧ cs.Nodup ∧
    cs.length = keys.dedup.length ∧
    ∀ k ∈ keys, ∃ c ∈ cs, ∃ e, m[c]? = some e ∧ e.key = ecHmapStrhash k

/-- Looking `key` up returns, with the entry that holds the value of the
finite map. -/
def Looks (setter : U → V) (m : Hmap V) (f : Bytes → Option U) (key : Bytes) : Prop :=
  ∃ fuel r, ecHmapGet fuel m key = some r ∧ r.isSome = (f key).isSome ∧
    ∀ c v, r = some c → f key = some v → ∃ e, m[c]? = some e ∧ e.val = setter v

/-- The sets return, and leave a map that is the finite map at `key`. -/
def RefinesMap (setter : U → V) (junk : V) (sets : List (Bytes × U)) (key : Bytes) : Prop :=
  ∃ fuel m, ecHmapSets setter fuel (ecHmapInit junk) sets = some m ∧
    OneEntryEach m (sets.map (·.1)) ∧ Looks setter m (finMap sets) key

/-! ## shapes -/

/-- A map whose sets had one hash. -/
def single (junk : V) (h : Nat) (v : V) : Hmap V := [⟨0, some 1, junk⟩, ⟨h, none, v⟩]

/-- A map with two entries: the copy of the head brings its link along. -/
def looped (junk : V) (h h' : Nat) (v v' : V) : Hmap V :=
  [⟨0, some 1, junk⟩, ⟨h, some 2, v⟩, ⟨h', some 1, v'⟩]

variable {setter : U → V} {junk v v' : V} {u : U} {m m' : Hmap V} {h h' fuel prev c : Nat}
variable {key : Bytes} {sets : List (Bytes × U)}

theorem ecHmapSet_init : ecHmapSet setter (fuel + 1) (ecHmapInit junk) key u =
    some (single junk (ecHmapStrhash key) (setter u)) := by
  simp [ecHmapSet, ecHmapInit, hmapFind, hmapInsert, single]

theorem ecHmapSet_single_eq (hk : ecHmapStrhash key = h) :
    ecHmapSet setter (fuel + 1) (single junk h v) key u = some (single junk h (setter u)) := by
  simp [ecHmapSet, single, hmapFind, hk]

theorem ecHmapSet_single_ne (hk : h ≠ ecHmapStrhash key) :
    ecHmapSet setter (fuel + 2) (single junk h v) key u =
      some (looped junk h (ecHmapStrhash key) v (setter u)) := by
  simp [ecHmapSet, single, hmapFind, hmapInsert, looped, hk]

/-- A search around the loop ends at one of its two entries, or not at all. -/
theorem hmapFind_looped {k : Nat} {p : Nat × Option Nat} (hc : c = 1 ∨ c = 2)
    (hf : hmapFind (looped junk h h' v v') k fuel prev (some c) = some p) :
    p.2 = some 1 ∨ p.2 = some 2 := by
  induction fuel generalizing prev c with
  | zero => contradiction
  | succ fuel ih =>
      obtain rfl | rfl := hc
      · by_cases hk : h = k
        · simp [hmapFind, looped, hk] at hf
          simp [← hf]
        · exact ih (.inr rfl) (by simpa [hmapFind, looped, hk] using hf)
      · by_cases hk : h' = k
        · simp [hmapFind, looped, hk] at hf
          simp [← hf]
        · exact ih (.inl rfl) (by simpa [hmapFind, looped, hk] using hf)

theorem ecHmapSet_looped (hs : ecHmapSet setter fuel (looped junk h h' v v') key u = some m) :
    ∃ w w', m = looped junk h h' w w' := by
  obtain ⟨p, hp, hm⟩ := Option.map_eq_some_iff.mp (show (hmapFind (looped junk h h' v v')
    (ecHmapStrhash key) fuel 0 (some 1)).map _ = some m from hs)
  obtain h1 | h2 := hmapFind_looped (.inl rfl) hp
  · rw [h1] at hm
    exact ⟨setter u, v', hm.symm⟩
  · rw [h2] at hm
    exact ⟨v, setter u, hm.symm⟩

/-! ## sequences of sets -/

theorem ecHmapSets_looped (hs : ecHmapSets setter fuel (looped junk h h' v v') sets = some m) :
    ∃ w w', m = looped junk h h' w w' := by
  induction sets generalizing v v' with
  | nil => exact ⟨v, v', (Option.some.inj hs).symm⟩
  | cons kv sets ih =>
      obtain ⟨m', hm', hs⟩ := Option.bind_eq_some_iff.mp hs
      obtain ⟨w, w', rfl⟩ := ecHmapSet_looped hm'
      exact ih hs

/-- A second hash closes the chain. -/
theorem ecHmapSets_single (hs : ecHmapSets setter fuel (single junk h v) sets = some m) :
    (∀ kv ∈ sets, ecHmapStrhash kv.1 = h) ∧ (∃ w, m = single junk h w) ∨
      ∃ h' w w', m = looped junk h h' w w' := by
  induction sets generalizing v with
  | nil => exact .inl ⟨by simp, v, (Option.some.inj hs).symm⟩
  | cons kv sets ih =>
      obtain ⟨m', hm', hs⟩ := Option.bind_eq_some_iff.mp hs
      cases fuel with
      | zero => contradiction
      | succ fuel =>
          by_cases hk : ecHmapStrhash kv.1 = h
          · rw [ecHmapSet_single_eq hk] at hm'
            obtain rfl := Option.some.inj hm'
            obtain ⟨hall, hw⟩ | hl := ih hs
            · exact .inl ⟨List.forall_mem_cons.mpr ⟨hk, hall⟩, hw⟩
            · exact .inr hl
          · cases fuel with
            | zero => simp [ecHmapSet, single, hmapFind, Ne.symm hk] at hm'
            | succ fuel =>
                rw [ecHmapSet_single_ne (Ne.symm hk)] at hm'
                obtain rfl := Option.some.inj hm'
                obtain ⟨w, w', hm⟩ := ecHmapSets_looped hs
                exact .inr ⟨_, w, w', hm⟩

/-- Sets of one key keep a single entry, with the value last set. -/
theorem ecHmapSets_key (junk : V) {f : Bytes → Option U} (hall : ∀ kv ∈ sets, kv.1 = key)
    (hf : f key = some u) : ∃ w,
      ecHmapSets setter 1 (single junk (ecHmapStrhash key) (setter u)) sets =
        some (single junk (ecHmapStrhash key) (setter w)) ∧
      ∀ k, sets.foldl finSet f k = if k = key then some w else f k := by
  induction sets generalizing u f with
  | nil => exact ⟨u, rfl, fun k => by by_cases hk : k = key <;> simp [hk, hf]⟩
  | cons kv sets ih =>
      obtain ⟨hkv, hall⟩ := List.forall_mem_cons.mp hall
      obtain ⟨w, hw, hfold⟩ := ih (f := finSet f kv) (u := kv.2) hall (by simp [finSet, hkv])
      refine ⟨w, ?_, fun k => ?_⟩
      · rw [ecHmapSets, ecHmapSet_single_eq (by rw [hkv]), Option.bind_some, hw]
      · rw [List.foldl_cons, hfold]
        by_cases hk : k = key <;> simp [finSet, hk, hkv]

/-! ## lookups -/

theorem ecHmapGet_single : ecHmapGet 2 (single junk h v) key =
    some (if h = ecHmapStrhash key then some 1 else none) := by
  by_cases hk : h = ecHmapStrhash key <;> simp [ecHmapGet, single, hmapFind, hk]

/-- A search for the hash of the entry finds it. -/
theorem ecHmapGet_hit {r : Option Nat} (hk : h = ecHmapStrhash key)
    (hg : ecHmapGet fuel (single junk h v) key = some r) : r = some 1 := by
  cases fuel with
  | zero => contradiction
  | succ fuel =>
      simp [ecHmapGet, single, hmapFind, hk] at hg
      exact hg.symm

theorem not_chain_looped (cs : List Nat) (hc : c = 1 ∨ c = 2) :
    ¬ Chain (looped junk h h' v v') (some c) cs := by
  induction cs generalizing c with
  | nil => simp [Chain]
  | cons d cs ih =>
      intro hch
      obtain ⟨hd, e, he, hch⟩ := hch
      obtain rfl := Option.some.inj hd
      obtain rfl | rfl := hc
      · obtain rfl := Option.some.inj he
        exact ih (.inr rfl) hch
      · obtain rfl := Option.some.inj he
        exact ih (.inl rfl) hch

theorem not_oneEntryEach_looped (keys : List Bytes) :
    ¬ OneEntryEach (looped junk h h' v v') keys := by
  intro hone
  obtain ⟨head, cs, hh, hch, -⟩ := hone
  obtain rfl := Option.some.inj hh
  exact not_chain_looped cs (.inl rfl) hch

theorem chain_single (cs : List Nat) : Chain (single junk h v) (some 1) cs ↔ cs = [1] := by
  cases cs with
  | nil => simp [Chain]
  | cons c cs =>
      cases cs with
      | nil =>
          simp only [Chain, single]
          constructor
          · rintro ⟨hc, -⟩
            rw [Option.some.inj hc]
          · intro hc
            rw [List.cons.inj hc |>.1]
            exact ⟨rfl, _, rfl, rfl⟩
      | cons d cs =>
          simp only [Chain, single]
          constructor
          · rintro ⟨hc, e, he, hd, -⟩
            obtain rfl := Option.some.inj hc
            obtain rfl := Option.some.inj he
            contradiction
          · intro hc
            simp at hc

/-- One entry is one key. -/
theorem oneEntryEach_single {keys : List Bytes} : OneEntryEach (single junk h v) keys ↔
    keys.dedup.length = 1 ∧ ∀ k ∈ keys, ecHmapStrhash k = h := by
  constructor
  · rintro ⟨head, cs, hh, hch, -, hlen, hkeys⟩
    obtain rfl := Option.some.inj hh
    obtain rfl := (chain_single cs).mp hch
    refine ⟨hlen.symm, fun k hk => ?_⟩
    obtain ⟨c, hc, e, he, hek⟩ := hkeys k hk
    obtain rfl := List.mem_singleton.mp hc
    obtain rfl := Option.some.inj he
    exact hek.symm
  · rintro ⟨hlen, hkeys⟩
    exact ⟨_, [1], rfl, (chain_single [1]).mpr rfl, List.nodup_singleton 1, hlen.symm,
      fun k hk => ⟨1, by simp, _, rfl, (hkeys k hk).symm⟩⟩

/-- All keys are one key. -/
theorem dedup_length_eq_one {keys : List Bytes} : keys.dedup.length = 1 ↔
    keys ≠ [] ∧ ∀ a ∈ keys, ∀ b ∈ keys, a = b := by
  constructor
  · intro hlen
    obtain ⟨k, hk⟩ := List.length_eq_one_iff.mp hlen
    have hmem : ∀ a, a ∈ keys ↔ a = k := fun a => by rw [← List.mem_dedup, hk, List.mem_singleton]
    refine ⟨List.ne_nil_of_mem ((hmem k).mpr rfl), fun a ha b hb => ?_⟩
    rw [(hmem a).mp ha, (hmem b).mp hb]
  · rintro ⟨hne, hall⟩
    obtain ⟨k, hk⟩ := List.exists_mem_of_ne_nil keys hne
    rw [List.eq_replicate_of_mem fun a ha => hall a ha k hk,
      List.replicate_dedup (by simpa using hne), List.length_singleton]

/-! ## the map -/

/-- The first set makes the map a single entry, so what is left is one entry
or a loop. -/
theorem ecHmapSets_cons {kv : Bytes × U}
    (hs : ecHmapSets setter fuel (ecHmapInit junk) (kv :: sets) = some m) :
    (∀ a ∈ kv :: sets, ecHmapStrhash a.1 = ecHmapStrhash kv.1) ∧
        (∃ w, m = single junk (ecHmapStrhash kv.1) w) ∨
      ∃ h h' w w', m = looped junk h h' w w' := by
  cases fuel with
  | zero => contradiction
  | succ fuel =>
      rw [ecHmapSets, ecHmapSet_init, Option.bind_some] at hs
      obtain ⟨hall, hw⟩ | hl := ecHmapSets_single hs
      · exact .inl ⟨List.forall_mem_cons.mpr ⟨rfl, hall⟩, hw⟩
      · exact .inr ⟨_, hl⟩

/-- Sets of one key, from the empty map on. -/
theorem ecHmapSets_init_key (setter : U → V) (junk : V) {kv : Bytes × U}
    (hall : ∀ a ∈ kv :: sets, ∀ b ∈ kv :: sets, a.1 = b.1) : ∃ w,
      ecHmapSets setter 1 (ecHmapInit junk) (kv :: sets) =
        some (single junk (ecHmapStrhash kv.1) (setter w)) ∧
      ∀ k, finMap (kv :: sets) k = if k = kv.1 then some w else none := by
  obtain ⟨w, hs, hfold⟩ := ecHmapSets_key junk (u := kv.2)
    (f := finSet (fun _ => none) kv)
    (fun a ha => hall a (List.mem_cons_of_mem kv ha) kv List.mem_cons_self) (by simp [finSet])
  refine ⟨w, ?_, fun k => ?_⟩
  · rw [ecHmapSets, ecHmapSet_init, Option.bind_some, hs]
  · rw [finMap, List.foldl_cons, hfold]
    by_cases hk : k = kv.1 <;> simp [finSet, hk]

/-- Sets of one key leave one entry, which lookups find by the key's hash. -/
theorem refinesMap_of_key (hall : ∀ a ∈ sets, ∀ b ∈ sets, a.1 = b.1)
    (hcol : ∀ a ∈ sets, ecHmapStrhash a.1 = ecHmapStrhash key → a.1 = key) :
    RefinesMap setter junk sets key := by
  cases sets with
  | nil =>
      refine ⟨1, _, rfl, ⟨_, [], rfl, rfl, List.nodup_nil, rfl, by simp⟩, 1, none, rfl, rfl, ?_⟩
      intro c v hc
      contradiction
  | cons kv sets =>
      obtain ⟨w, hsets, hmap⟩ := ecHmapSets_init_key setter junk hall
      refine ⟨1, _, hsets, oneEntryEach_single.mpr ⟨dedup_length_eq_one.mpr ⟨by simp, ?_⟩, ?_⟩,
        2, _, ecHmapGet_single, ?_⟩
      · intro a ha b hb
        obtain ⟨x, hx, rfl⟩ := List.mem_map.mp ha
        obtain ⟨y, hy, rfl⟩ := List.mem_map.mp hb
        exact hall x hx y hy
      · intro k hk
        obtain ⟨x, hx, rfl⟩ := List.mem_map.mp hk
        rw [hall x hx kv List.mem_cons_self]
      · rw [hmap]
        by_cases hk : key = kv.1
        · simp [hk, single]
        · have hne : ecHmapStrhash kv.1 ≠ ecHmapStrhash key := fun heq =>
            hk (hcol kv List.mem_cons_self heq).symm
          simp [hk, hne]

/-- **Refinement**: the sets return, keep an acyclic chain with one entry
for every key, and a lookup agrees with the finite map, exactly when only
one key is set and the key looked up does not share its hash. -/
theorem refinesMap_iff (setter : U → V) (junk : V) (sets : List (Bytes × U)) (key : Bytes) :
    RefinesMap setter junk sets key ↔ (∀ a ∈ sets, ∀ b ∈ sets, a.1 = b.1) ∧
      ∀ a ∈ sets, ecHmapStrhash a.1 = ecHmapStrhash key → a.1 = key := by
  refine ⟨fun hr => ?_, fun ⟨hall, hcol⟩ => refinesMap_of_key hall hcol⟩
  obtain ⟨fuel, m, hs, hone, fuel', r, hget, hsome, -⟩ := hr
  cases sets with
  | nil => simp
  | cons kv sets =>
      obtain ⟨hhash, w, rfl⟩ | ⟨h, h', w, w', rfl⟩ := ecHmapSets_cons hs
      · obtain ⟨hlen, -⟩ := oneEntryEach_single.mp hone
        have hkeys := (dedup_length_eq_one.mp hlen).2
        have hall : ∀ a ∈ kv :: sets, ∀ b ∈ kv :: sets, a.1 = b.1 := fun a ha b hb =>
          hkeys _ (List.mem_map_of_mem ha) _ (List.mem_map_of_mem hb)
        refine ⟨hall, fun a ha heq => ?_⟩
        by_contra hne
        have hnone : finMap (kv :: sets) key = none := by
          obtain ⟨w, -, hmap⟩ := ecHmapSets_init_key setter junk hall
          rw [hmap, if_neg fun hk => hne ((hall a ha kv List.mem_cons_self).trans hk.symm)]
        rw [ecHmapGet_hit ((hhash a ha).symm.trans heq) hget, hnone] at hsome
        contradiction
      · exact absurd hone (not_oneEntryEach_looped _)

/-- Two keys close the chain, and `"Aa"` is found for `"BB"`. -/
theorem not_refinesMap :
    ¬ RefinesMap (id : Nat → Nat) 0 [([65], 1), ([66], 2)] [65] ∧
      ¬ RefinesMap (id : Nat → Nat) 0 [([65, 97], 1)] [66, 66] := by
  constructor
  · rintro ⟨fuel, m, hs, hone, -⟩
    obtain ⟨hhash, -⟩ | ⟨h, h', w, w', rfl⟩ := ecHmapSets_cons hs
    · have h66 := hhash ([66], 2) (by simp)
      revert h66
      decide
    · exact not_oneEntryEach_looped _ hone
  · rintro ⟨fuel, m, hs, -, fuel', r, hget, hsome, -⟩
    obtain ⟨-, w, rfl⟩ | ⟨h, h', w, w', rfl⟩ := ecHmapSets_cons hs
    · rw [ecHmapGet_hit (by decide) hget] at hsome
      revert hsome
      decide
    · cases fuel with
      | zero => contradiction
      | succ fuel =>
          rw [ecHmapSets, ecHmapSet_init, Option.bind_some, ecHmapSets] at hs
          have hlen := congrArg (Option.map List.length) hs
          simp [single, looped] at hlen

end Hmap

/-! ## the shell's variables -/

/-- `ec_hmap_var_set`: `strncpy` keeps what fits in 256 bytes with the NUL. -/
def ecHmapVarSet (val : Bytes) : Bytes := val.take 255

/-- A short value that is set once is looked up unchanged. -/
example : ((ecHmapSet ecHmapVarSet 2 (ecHmapInit []) [80, 83, 49] [35, 32]).bind fun m =>
    (ecHmapGet 2 m [80, 83, 49]).map fun r => r.bind fun c => (m[c]?).map (·.val)) =
      some (some [35, 32]) := by decide

end Eclair
