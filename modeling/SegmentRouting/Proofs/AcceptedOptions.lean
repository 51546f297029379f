import SegmentRouting.Deployment
import SegmentRouting.Proofs.Text

/-! Which options are accepted, and as what. The table count is looked at before
the seed, each of them alone, and no other option is looked at. -/

namespace SegmentRouting

/-- Just what `accepts` holds of comes out; a refusal names the option. -/
def Reads {α : Type} (result : Except RoutingError α) (key : String) (accepts : α → Prop) : Prop :=
  (∀ a, result = .ok a ↔ accepts a) ∧
    ∀ e, result = .error e → ∃ reason, e = .invalidConfig key reason

namespace Reads

variable {α β : Type} {result : Except RoutingError α} {key : String} {accepts : α → Prop}

theorem pure (a : α) : Reads (.ok a) key (· = a) :=
  ⟨fun b => by simp [eq_comm], fun e he => by contradiction⟩

theorem error {reason : String} (hno : ∀ a, ¬ accepts a) :
    Reads (.error (.invalidConfig key reason)) key accepts := by
  refine ⟨fun a => iff_of_false (fun h => by contradiction) (hno a), ?_⟩
  rintro _ ⟨⟩
  exact ⟨reason, rfl⟩

theorem of_iff {accepts' : α → Prop} (h : Reads result key accepts)
    (hiff : ∀ a, accepts a ↔ accepts' a) : Reads result key accepts' :=
  ⟨fun a => (h.1 a).trans (hiff a), h.2⟩

theorem bind {f : α → Except RoutingError β} {accepts' : α → β → Prop}
    (h : Reads result key accepts) (hf : ∀ a, Reads (f a) key (accepts' a)) :
    Reads (result >>= f) key (fun b => ∃ a, accepts a ∧ accepts' a b) := by
  cases result with
  | ok a =>
    refine ⟨fun b => ?_, (hf a).2⟩
    simp only [← h.1, Except.ok.injEq, exists_eq_left']
    exact (hf a).1 b
  | error e =>
    refine ⟨fun b => ?_, ?_⟩
    · simp only [← h.1, reduceCtorEq, false_and, exists_false, iff_false]
      rintro ⟨⟩
    · rintro _ ⟨⟩
      exact h.2 e rfl

theorem exists_error (h : Reads result key accepts) (hno : ¬ ∃ a, accepts a) :
    ∃ reason, result = .error (.invalidConfig key reason) := by
  cases hr : result with
  | ok a => exact absurd ⟨a, (h.1 a).mp hr⟩ hno
  | error e =>
    obtain ⟨reason, rfl⟩ := h.2 e hr
    exact ⟨reason, rfl⟩

end Reads

namespace Options

variable {o o' : Options} {key : String}

theorem parse_congr {α : Type} {read : List Char → Except String α}
    (h : o.get? key = o'.get? key) : o.parse key read = o'.parse key read := by
  rw [parse, parse, h]

/-- The number below `limit` that an option value stands for, if it is given. -/
def GivesNatural (limit : Nat) : Option String → Option Nat → Prop
  | none, given => given = none
  | some raw, given => ∃ n, Denotes (trimChars raw.toList) n ∧ n < limit ∧ given = some n

theorem reads_natural {limit : Nat} (hlimit : 0 < limit) (o : Options) (key : String) :
    Reads (o.parse key (natural limit)) key (GivesNatural limit (o.get? key)) := by
  unfold parse
  cases o.get? key with
  | none => exact Reads.pure none
  | some raw =>
    have hgives : ∀ given, GivesNatural limit (some raw) given ↔
        ∃ n, readNatural limit (trimChars raw.toList) = .ok n ∧ given = some n := by
      intro given
      simp only [GivesNatural, readNatural_eq_ok_iff hlimit, and_assoc]
    simp only [natural]
    cases hn : readNatural limit (trimChars raw.toList) with
    | ok n => exact (Reads.pure (some n)).of_iff fun a => by simp [hgives, hn]
    | error fault => exact Reads.error fun a => by simp [hgives, hn]

end Options

namespace Settings

theorem reads_checkCount (count : Nat) :
    Reads (checkCount count) countKey (fun n => n = count ∧ 1 ≤ count ∧ count ≤ 1024) := by
  unfold checkCount maxCount
  split
  · exact Reads.error fun n => by omega
  · split
    · exact Reads.error fun n => by omega
    · exact (Reads.pure count).of_iff fun n => by omega

def readCount (o : Options) : Except RoutingError Nat := do
  let count ← o.parse countKey (Options.natural UInt64.size)
  checkCount (count.getD default.tableCount)

def readSeed (o : Options) : Except RoutingError (Option UInt64) := do
  let seed ← o.parse seedKey (Options.natural UInt64.size)
  return seed.map UInt64.ofNat

theorem ofOptions_eq (o : Options) :
    ofOptions o = do
      let count ← readCount o
      let seed ← readSeed o
      return ⟨count, seed⟩ := by
  unfold ofOptions readCount readSeed
  cases o.parse countKey (Options.natural UInt64.size) with
  | error e => rfl
  | ok count =>
    cases o.parse seedKey (Options.natural UInt64.size) <;>
      cases checkCount (count.getD default.tableCount) <;> rfl

def GivesCount : Option String → Nat → Prop
  | none, count => count = 10
  | some raw, count => Denotes (trimChars raw.toList) count ∧ 1 ≤ count ∧ count ≤ 1024

def GivesSeed : Option String → Option UInt64 → Prop
  | none, seed => seed = none
  | some raw, seed => ∃ n : UInt64, Denotes (trimChars raw.toList) n.toNat ∧ seed = some n

theorem reads_count (o : Options) :
    Reads (readCount o) countKey (GivesCount (o.get? countKey)) := by
  apply ((Options.reads_natural (by decide) o countKey).bind fun _ => reads_checkCount _).of_iff
  intro n
  cases o.get? countKey with
  | none => simp [Options.GivesNatural, GivesCount, default]
  | some raw =>
    simp only [Options.GivesNatural, GivesCount]
    constructor
    · rintro ⟨_, ⟨m, hm, -, rfl⟩, rfl, hrange⟩
      exact ⟨hm, hrange⟩
    · rintro ⟨hn, hrange⟩
      have hlt : n < UInt64.size := Nat.lt_of_le_of_lt hrange.2 (by decide)
      exact ⟨some n, ⟨n, hn, hlt, rfl⟩, rfl, hrange⟩

theorem reads_seed (o : Options) : Reads (readSeed o) seedKey (GivesSeed (o.get? seedKey)) := by
  apply ((Options.reads_natural (by decide) o seedKey).bind fun _ => Reads.pure _).of_iff
  intro seed
  cases o.get? seedKey with
  | none => simp [Options.GivesNatural, GivesSeed]
  | some raw =>
    simp only [Options.GivesNatural, GivesSeed]
    constructor
    · rintro ⟨_, ⟨m, hm, hlt, rfl⟩, rfl⟩
      refine ⟨UInt64.ofNat m, ?_, rfl⟩
      rwa [UInt64.toNat_ofNat_of_lt' hlt]
    · rintro ⟨n, hn, rfl⟩
      exact ⟨some n.toNat, ⟨n.toNat, hn, n.toNat_lt, rfl⟩, by simp⟩

theorem ofOptions_eq_ok_iff {o : Options} {s : Settings} :
    ofOptions o = .ok s ↔ readCount o = .ok s.tableCount ∧ readSeed o = .ok s.seed := by
  rw [ofOptions_eq]
  obtain ⟨count, seed⟩ := s
  cases readCount o <;> cases readSeed o <;> simp [bind, Except.bind, pure, Except.pure]

theorem ofOptions_congr {o o' : Options} (hcount : o.get? countKey = o'.get? countKey)
    (hseed : o.get? seedKey = o'.get? seedKey) : ofOptions o = ofOptions o' := by
  rw [ofOptions, ofOptions, Options.parse_congr hcount, Options.parse_congr hseed]

end Settings

theorem Deployment.get?_optionsOf (environment : Dict String) :
    (optionsOf environment).get? Settings.countKey = environment.get? "ROUTING_TABLE_COUNT" ∧
      (optionsOf environment).get? Settings.seedKey = environment.get? "ROUTING_RANDOM_SEED" := by
  have hne : Settings.countKey ≠ Settings.seedKey := by decide
  unfold optionsOf Dict.ofList
  cases hcount : environment.get? "ROUTING_TABLE_COUNT" <;>
    cases hseed : environment.get? "ROUTING_RANDOM_SEED" <;>
      simp [hcount, hseed, Dict.get?_insert, Dict.get?_empty, hne, hne.symm]

/-- The settings are what the two options give; else the first of them that gives nothing is
named. The last parts are about other options, padded seeds and the environment. -/
theorem Settings.ofOptions_reads_two_options (o : Options) :
    (∀ s, ofOptions o = .ok s ↔
      GivesCount (o.get? countKey) s.tableCount ∧ GivesSeed (o.get? seedKey) s.seed) ∧
    ((¬ ∃ count, GivesCount (o.get? countKey) count) →
      ∃ reason, ofOptions o = .error (.invalidConfig countKey reason)) ∧
    ((∃ count, GivesCount (o.get? countKey) count) →
      (¬ ∃ seed, GivesSeed (o.get? seedKey) seed) →
      ∃ reason, ofOptions o = .error (.invalidConfig seedKey reason)) ∧
    (∀ o' : Options, o'.get? countKey = o.get? countKey → o'.get? seedKey = o.get? seedKey →
      ofOptions o' = ofOptions o) ∧
    (∀ (n : UInt64) (u v : String), (∀ c ∈ u.toList, isBlank c = true) →
      (∀ c ∈ v.toList, isBlank c = true) →
      ∀ count, GivesCount (o.get? countKey) count →
        ofOptions (o.insert seedKey (u ++ toString n.toNat ++ v)) = .ok ⟨count, some n⟩) ∧
    ∀ (environment : Dict String) (current : Settings),
      environment.get? "ROUTING_TABLE_COUNT" = o.get? countKey →
      environment.get? "ROUTING_RANDOM_SEED" = o.get? seedKey →
      current.reconfigure (Deployment.ofEnvironment environment).options =
        current.reconfigure o := by
  have hiff : ∀ (o : Options) s, ofOptions o = .ok s ↔
      GivesCount (o.get? countKey) s.tableCount ∧ GivesSeed (o.get? seedKey) s.seed := by
    intro o s
    rw [ofOptions_eq_ok_iff, (reads_count o).1, (reads_seed o).1]
  refine ⟨hiff o, ?_, ?_, ?_, ?_, ?_⟩
  · intro hno
    obtain ⟨reason, he⟩ := (reads_count o).exists_error hno
    exact ⟨reason, by rw [ofOptions_eq, he]; rfl⟩
  · rintro ⟨count, hcount⟩ hno
    obtain ⟨reason, he⟩ := (reads_seed o).exists_error hno
    exact ⟨reason, by rw [ofOptions_eq, ((reads_count o).1 count).mpr hcount, he]; rfl⟩
  · intro o' hcount hseed
    exact ofOptions_congr hcount hseed
  · intro n u v hu hv count hcount
    have hne : countKey ≠ seedKey := by decide
    rw [hiff, Dict.get?_insert, Dict.get?_insert, if_neg hne, if_pos rfl]
    exact ⟨hcount, n, denotes_padded n.toNat hu hv, rfl⟩
  · intro environment current hcount hseed
    have hoptions := Deployment.get?_optionsOf environment
    rw [hcount, hseed] at hoptions
    rw [reconfigure, reconfigure, Deployment.ofEnvironment,
      ofOptions_congr hoptions.1 hoptions.2]

end SegmentRouting
