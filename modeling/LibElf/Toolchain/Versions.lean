import LibElf.Toolchain.ConvertSafe
import LibElf.Base.Scatter
import LibElf.Base.Table

/-!
# Version sections

The converters of `libelf_convert.m4` for version definitions and requirements follow two nested
chains of offsets that the section holds. They know a record from the links alone.

1. `cvtVersion_safe`: on any bytes the converters return, read only the source and store only in the
   destination.
2. `AuxChain` and `VerChain`, the chains of records of a section, and `auxLoop_chain`,
   `verLoop_chain`: on a chain of records that are apart a converter translates each of them.
3. `cvtVersion_round_trip`: to memory and back, every record of a chain comes back.
-/

namespace LibElf.Toolchain

open Outcome Mem

section Safe

variable (host : ByteOrder) (toFile swap : Bool) (V : VersionDef) {n : Nat}

/-- A load inside the first bytes of the source. -/
theorem readAt_take {ε σ : Type} {src : List UInt8} {s len count : Nat} (st : σ) (hin : s + len ≤ count)
    (hsrc : count ≤ src.length) :
    (readAt (src.take count) s len st : Outcome ε σ (List UInt8)) = readAt src s len st := by
  have hwin : window (src.take count) s len = window src s len := by
    have hfull : src.take count = window src 0 count := rfl
    rw [hfull, window_window hin, Nat.zero_add]
  rw [readAt_of_le st (by rw [List.length_take]; omega), readAt_of_le st (by omega), hwin]

theorem auxLoop_take {off dsz count : Nat} {src : List UInt8} (hsrc : count ≤ src.length) (cnt : Nat) :
    ∀ (dst : Mem n) (anext d s : Nat),
    auxLoop host toFile swap V off dsz (src.take count) count cnt dst anext d s =
      auxLoop host toFile swap V off dsz src count cnt dst anext d s := by
  induction cnt with
  | zero => exact fun _ _ _ _ => rfl
  | succ cnt ih =>
    intro dst anext d s
    unfold auxLoop
    split
    · rfl
    · next hin =>
      rw [readAt_take dst (by omega) hsrc]
      simp only [ih]

theorem verLoop_take {off dsz count : Nat} {src : List UInt8} (hsrc : count ≤ src.length) (fuel : Nat) :
    ∀ (dst : Mem n) (vnext d s : Nat),
    verLoop host toFile swap V off dsz (src.take count) count fuel dst vnext d s =
      verLoop host toFile swap V off dsz src count fuel dst vnext d s := by
  induction fuel with
  | zero => exact fun _ _ _ _ => rfl
  | succ fuel ih =>
    intro dst vnext d s
    unfold verLoop
    split
    · rfl
    · split
      · rfl
      · next hin =>
        rw [readAt_take dst (by omega) hsrc]
        simp only [ih, auxLoop_take host toFile swap V hsrc]

/-- The converters of the two version sections are safe on any bytes. They return; what they store is
inside the `dsz` bytes at `off`; and they do the same with a source that ends after `count` bytes, where
a load beyond would be a fault. -/
theorem cvtVersion_safe (hV : V = verdefDef ∨ V = verneedDef) (dst : Mem n) {off dsz count : Nat}
    {src : List UInt8} (hroom : off + dsz ≤ n) (hsrc : count ≤ src.length) :
    Tame dst off dsz (cvtVersion host toFile V n dst off dsz src count swap) ∧
      cvtVersion host toFile V n dst off dsz (src.take count) count swap =
        cvtVersion host toFile V n dst off dsz src count swap := by
  have hver : 0 < packedSize V.ver := by
    rcases hV with rfl | rfl <;> decide
  exact ⟨tame_cvtVersion host toFile swap V hroom hsrc hver dst, verLoop_take host toFile swap V hsrc _ dst _ 0 0⟩

/-- A version definition whose links lead out of the section. -/
theorem cvtVersion_safe_wild :
    Tame (.fresh (fun _ => 0) 24) 0 24 (cvtVersion .little false verdefDef 24 (.fresh (fun _ => 0) 24) 0 24
        (List.replicate 24 0xFF) 24 true) ∧
      cvtVersion .little false verdefDef 24 (.fresh (fun _ => 0) 24) 0 24 ((List.replicate 24 0xFF).take 24) 24 true =
        cvtVersion .little false verdefDef 24 (.fresh (fun _ => 0) 24) 0 24 (List.replicate 24 0xFF) 24 true :=
  cvtVersion_safe .little false true verdefDef (.inl rfl) (.fresh (fun _ => 0) 24) (by decide) (by decide)

end Safe

/-! ## Chains -/

section Chains

variable {o o' : ByteOrder} {V : VersionDef} {bs m : List UInt8}

def member (o : ByteOrder) (fs : List Field) (i : Nat) (r : List UInt8) : Nat := (decode o fs r).getD i 0

/-- The auxiliary records from offset `s` on: each one leads to the next by its link, and the link of the
last one is zero. -/
inductive AuxChain (o : ByteOrder) (V : VersionDef) (bs : List UInt8) : Nat → List Slot → Prop
  | last {s : Nat} : s + packedSize V.aux ≤ bs.length →
      member o V.aux V.auxNextAt (window bs s (packedSize V.aux)) = 0 → AuxChain o V bs s [(s, V.aux)]
  | next {s : Nat} {rest : List Slot} : s + packedSize V.aux ≤ bs.length →
      member o V.aux V.auxNextAt (window bs s (packedSize V.aux)) ≠ 0 →
      AuxChain o V bs (s + member o V.aux V.auxNextAt (window bs s (packedSize V.aux))) rest →
      AuxChain o V bs s ((s, V.aux) :: rest)

/-- The records from offset `s` on, each followed by its auxiliary records. A record holds their number,
the offset of the first one and the link to the next record. -/
inductive VerChain (o : ByteOrder) (V : VersionDef) (bs : List UInt8) : Nat → List Slot → Prop
  | last {s : Nat} {as : List Slot} : s + packedSize V.ver ≤ bs.length →
      member o V.ver V.nextAt (window bs s (packedSize V.ver)) = 0 →
      AuxChain o V bs (s + member o V.ver V.auxAt (window bs s (packedSize V.ver))) as →
      as.length = member o V.ver V.cntAt (window bs s (packedSize V.ver)) →
      VerChain o V bs s ((s, V.ver) :: as)
  | next {s : Nat} {as rest : List Slot} : s + packedSize V.ver ≤ bs.length →
      member o V.ver V.nextAt (window bs s (packedSize V.ver)) ≠ 0 →
      AuxChain o V bs (s + member o V.ver V.auxAt (window bs s (packedSize V.ver))) as →
      as.length = member o V.ver V.cntAt (window bs s (packedSize V.ver)) →
      VerChain o V bs (s + member o V.ver V.nextAt (window bs s (packedSize V.ver))) rest →
      VerChain o V bs s ((s, V.ver) :: as ++ rest)

theorem AuxChain.exists_cons {s : Nat} {as : List Slot} (h : AuxChain o V bs s as) :
    ∃ rest, as = (s, V.aux) :: rest := by
  cases h with
  | last _ _ => exact ⟨[], rfl⟩
  | next _ _ _ => exact ⟨_, rfl⟩

/-- A byte string with the same values in these records holds the same chain. -/
theorem AuxChain.transport {s : Nat} {as : List Slot} (h : AuxChain o V bs s as) (hlen : m.length = bs.length)
    (hsame : ∀ p ∈ as, ∀ i, member o' p.2 i (p.bytes m) = member o p.2 i (p.bytes bs)) :
    AuxChain o' V m s as := by
  induction h with
  | @last s hin hnext =>
    have hs : member o' V.aux V.auxNextAt (window m s (packedSize V.aux)) = _ :=
      hsame (s, V.aux) List.mem_cons_self V.auxNextAt
    exact .last (hlen ▸ hin) (hs.trans hnext)
  | @next s rest hin hnext _ ih =>
    have hs : member o' V.aux V.auxNextAt (window m s (packedSize V.aux)) =
        member o V.aux V.auxNextAt (window bs s (packedSize V.aux)) :=
      hsame (s, V.aux) List.mem_cons_self V.auxNextAt
    refine .next (hlen ▸ hin) (hs ▸ hnext) ?_
    rw [hs]
    exact ih fun p hp => hsame p (List.mem_cons_of_mem _ hp)

theorem VerChain.transport {s : Nat} {ps : List Slot} (h : VerChain o V bs s ps) (hlen : m.length = bs.length)
    (hsame : ∀ p ∈ ps, ∀ i, member o' p.2 i (p.bytes m) = member o p.2 i (p.bytes bs)) :
    VerChain o' V m s ps := by
  induction h with
  | @last s as hin hnext haux hcnt =>
    have hs : ∀ i, member o' V.ver i (window m s (packedSize V.ver)) =
        member o V.ver i (window bs s (packedSize V.ver)) :=
      hsame (s, V.ver) List.mem_cons_self
    refine .last (hlen ▸ hin) ((hs _).trans hnext) ?_ (hcnt.trans (hs _).symm)
    rw [hs]
    exact haux.transport hlen fun p hp => hsame p (List.mem_cons_of_mem _ hp)
  | @next s as rest hin hnext haux hcnt _ ih =>
    have hs : ∀ i, member o' V.ver i (window m s (packedSize V.ver)) =
        member o V.ver i (window bs s (packedSize V.ver)) :=
      hsame (s, V.ver) (by simp)
    refine .next (hlen ▸ hin) (hs _ ▸ hnext) ?_ (hcnt.trans (hs _).symm) ?_
    · rw [hs]
      exact haux.transport hlen fun p hp => hsame p (by simp [hp])
    · rw [hs]
      exact ih fun p hp => hsame p (by simp [hp])

theorem AuxChain.members {s : Nat} {as : List Slot} (h : AuxChain o V bs s as) :
    ∀ p ∈ as, p.2 = V.aux ∧ p.1 + p.size ≤ bs.length := by
  induction h with
  | last hin _ =>
    intro p hp
    obtain rfl := List.mem_singleton.mp hp
    exact ⟨rfl, hin⟩
  | next hin _ _ ih =>
    intro p hp
    rcases List.mem_cons.mp hp with rfl | hp
    · exact ⟨rfl, hin⟩
    · exact ih p hp

theorem VerChain.members {s : Nat} {ps : List Slot} (h : VerChain o V bs s ps) :
    ∀ p ∈ ps, (p.2 = V.ver ∨ p.2 = V.aux) ∧ p.1 + p.size ≤ bs.length := by
  have haux : ∀ {s : Nat} {as : List Slot}, AuxChain o V bs s as →
      ∀ p ∈ as, (p.2 = V.ver ∨ p.2 = V.aux) ∧ p.1 + p.size ≤ bs.length :=
    fun h p hp => ⟨.inr (h.members p hp).1, (h.members p hp).2⟩
  induction h with
  | last hin _ has _ =>
    intro p hp
    rcases List.mem_cons.mp hp with rfl | hp
    · exact ⟨.inl rfl, hin⟩
    · exact haux has p hp
  | next hin _ has _ _ ih =>
    intro p hp
    rcases List.mem_append.mp hp with hp | hp
    · rcases List.mem_cons.mp hp with rfl | hp
      · exact ⟨.inl rfl, hin⟩
      · exact haux has p hp
    · exact ih p hp

end Chains

/-! ## The converters on a chain -/

section Loops

variable (host : ByteOrder) (toFile swap : Bool) {V : VersionDef} {n : Nat}

/-- The byte order of the source of a conversion. -/
def srcOrder : ByteOrder := if toFile then host else fileOrder host swap

theorem nativeMember_eq {fs : List Field} {r : List UInt8} (hp : isPacked 0 fs = true)
    (hr : r.length = packedSize fs) (i : Nat) :
    nativeMember host toFile swap fs i r = member (srcOrder host toFile swap) fs i r := by
  cases toFile with
  | true => rfl
  | false =>
    have hdec : decode host fs (tomObject host swap fs (zeroObject fs) r) = decode (fileOrder host swap) fs r :=
      decode_tomObject host swap hp hr
    exact congrArg (fun vs => vs.getD i 0) hdec

/-- The structures of the section have no padding, and some bytes. -/
structure VersionDef.Packed (V : VersionDef) : Prop where
  ver : isPacked 0 V.ver = true
  aux : isPacked 0 V.aux = true
  ver_pos : 0 < packedSize V.ver
  aux_pos : 0 < packedSize V.aux

theorem packed_versionDef (hV : V = verdefDef ∨ V = verneedDef) : V.Packed := by
  rcases hV with rfl | rfl
  · exact ⟨by decide, by decide, by decide, by decide⟩
  · exact ⟨by decide, by decide, by decide, by decide⟩

variable {off dsz : Nat} {src : List UInt8}

/-- One record is read and written. -/
theorem record_bind {p : Slot} {β : Type} {dst : Mem n} (hsize : naturalSize p.2 = packedSize p.2)
    (hin : p.1 + p.size ≤ src.length) (hroom : off + src.length ≤ n)
    (f : List UInt8 → Mem n → Outcome Unit (Mem n) β) :
    ∃ d, Scattered (cvtObject host toFile swap) off src dst d [p] ∧
      ((readAt src p.1 p.size dst : Outcome Unit (Mem n) (List UInt8)).bind fun r dst =>
        (dst.write (off + p.1) (cvtObject host toFile swap p.2 r)).bind fun _ dst => f r dst) =
        f (p.bytes src) d := by
  have hlen : (cvtObject host toFile swap p.2 (p.bytes src)).length = p.size :=
    length_cvtObject host toFile swap hsize (length_window hin)
  have hout : off + p.1 + (cvtObject host toFile swap p.2 (p.bytes src)).length ≤ n := by
    rw [hlen]
    omega
  refine ⟨_, scattered_splice hlen hout, ?_⟩
  rw [readAt_of_le dst hin, bind_ok]
  show (dst.write (off + p.1) (cvtObject host toFile swap p.2 (p.bytes src))).bind _ = _
  rw [write_of_le dst hout, bind_ok]
  rfl

theorem auxLoop_chain (hV : V.Packed) (hroom : off + src.length ≤ n) (hdsz : src.length ≤ dsz) {s : Nat}
    {as : List Slot} (h : AuxChain (srcOrder host toFile swap) V src s as) :
    ∀ (dst : Mem n) (anext : Nat), anext ≠ 0 → as.Pairwise Slot.Apart →
    ∃ d, auxLoop host toFile swap V off dsz src src.length as.length dst anext s s = .ok () d ∧
      Scattered (cvtObject host toFile swap) off src dst d as := by
  induction h with
  | @last s hin hnext =>
    intro dst anext hne _
    obtain ⟨d, hd, hrun⟩ := @record_bind host toFile swap n off src (s, V.aux) Unit dst V.size_aux hin hroom
      fun r d => auxLoop host toFile swap V off dsz src src.length 0 d
        (nativeMember host toFile swap V.aux V.auxNextAt r)
        (s + nativeMember host toFile swap V.aux V.auxNextAt r) (s + nativeMember host toFile swap V.aux V.auxNextAt r)
    refine ⟨d, ?_, hd⟩
    rw [List.length_singleton, auxLoop, if_neg (by omega)]
    refine hrun.trans ?_
    have hread := nativeMember_eq host toFile swap hV.aux (length_window hin) V.auxNextAt
    rw [hnext] at hread
    have hread : nativeMember host toFile swap V.aux V.auxNextAt (Slot.bytes (s, V.aux) src) = 0 := hread
    rw [hread, auxLoop, if_neg (fun h => h rfl)]
  | @next s rest hin hnext _ ih =>
    intro dst anext hne hapart
    obtain ⟨hfirst, hrest⟩ := List.pairwise_cons.mp hapart
    obtain ⟨d, hd, hrun⟩ := @record_bind host toFile swap n off src (s, V.aux) Unit dst V.size_aux hin hroom
      fun r d => auxLoop host toFile swap V off dsz src src.length rest.length d
        (nativeMember host toFile swap V.aux V.auxNextAt r)
        (s + nativeMember host toFile swap V.aux V.auxNextAt r) (s + nativeMember host toFile swap V.aux V.auxNextAt r)
    have hread : nativeMember host toFile swap V.aux V.auxNextAt (Slot.bytes (s, V.aux) src) =
        member (srcOrder host toFile swap) V.aux V.auxNextAt (window src s (packedSize V.aux)) :=
      nativeMember_eq host toFile swap hV.aux (length_window hin) V.auxNextAt
    obtain ⟨d', hd', hwritten⟩ := ih d _ hnext hrest
    refine ⟨d', ?_, ?_⟩
    · rw [List.length_cons, auxLoop, if_neg (by omega)]
      refine hrun.trans ?_
      rw [hread]
      exact hd'
    · exact hd.append hwritten fun p hp => by
        obtain rfl := List.mem_singleton.mp hp
        exact hfirst

/-- The auxiliary records come after the record they belong to. -/
theorem ver_le_aux (hV : V.Packed) {o : ByteOrder} {s a : Nat} {as : List Slot} (haux : AuxChain o V src (s + a) as)
    (hapart : ∀ p ∈ as, Slot.Apart (s, V.ver) p) : packedSize V.ver ≤ a := by
  obtain ⟨rest, rfl⟩ := haux.exists_cons
  have hpos := hV.aux_pos
  rcases hapart _ List.mem_cons_self with hle | hle
  · have hle : s + packedSize V.ver ≤ s + a := hle
    omega
  · have hle : s + a + packedSize V.aux ≤ s := hle
    omega

/-- One turn of the outer loop, up to the end of the auxiliary records. -/
theorem verLoop_turn (hV : V.Packed) (hroom : off + src.length ≤ n) (hdsz : src.length ≤ dsz) {s : Nat}
    {as : List Slot} (hin : s + packedSize V.ver ≤ src.length)
    (haux : AuxChain (srcOrder host toFile swap) V src
      (s + member (srcOrder host toFile swap) V.ver V.auxAt (window src s (packedSize V.ver))) as)
    (hcnt : as.length = member (srcOrder host toFile swap) V.ver V.cntAt (window src s (packedSize V.ver)))
    (hapart : ((s, V.ver) :: as).Pairwise Slot.Apart) (dst : Mem n) {vnext : Nat} (hne : vnext ≠ 0) (fuel : Nat) :
    ∃ d, Scattered (cvtObject host toFile swap) off src dst d ((s, V.ver) :: as) ∧
      verLoop host toFile swap V off dsz src src.length (fuel + 1) dst vnext s s =
        verLoop host toFile swap V off dsz src src.length fuel d
          (member (srcOrder host toFile swap) V.ver V.nextAt (window src s (packedSize V.ver)))
          (s + member (srcOrder host toFile swap) V.ver V.nextAt (window src s (packedSize V.ver)))
          (s + member (srcOrder host toFile swap) V.ver V.nextAt (window src s (packedSize V.ver))) := by
  obtain ⟨hfirst, hrest⟩ := List.pairwise_cons.mp hapart
  have hread : ∀ i, nativeMember host toFile swap V.ver i (Slot.bytes (s, V.ver) src) =
      member (srcOrder host toFile swap) V.ver i (window src s (packedSize V.ver)) :=
    nativeMember_eq host toFile swap hV.ver (length_window hin)
  have hle := ver_le_aux hV haux hfirst
  obtain ⟨d, hd, hrun⟩ := @record_bind host toFile swap n off src (s, V.ver) Unit dst V.size_ver hin hroom
    fun r d =>
      if nativeMember host toFile swap V.ver V.auxAt r < packedSize V.ver then .err () d
      else (auxLoop host toFile swap V off dsz src src.length (nativeMember host toFile swap V.ver V.cntAt r) d
        0xFFFFFFFF (s + nativeMember host toFile swap V.ver V.auxAt r)
        (s + nativeMember host toFile swap V.ver V.auxAt r)).bind fun _ d =>
          verLoop host toFile swap V off dsz src src.length fuel d
            (nativeMember host toFile swap V.ver V.nextAt r)
            (s + nativeMember host toFile swap V.ver V.nextAt r)
            (s + nativeMember host toFile swap V.ver V.nextAt r)
  obtain ⟨d', hd', hwritten⟩ := auxLoop_chain host toFile swap hV hroom hdsz haux d 0xFFFFFFFF (by decide) hrest
  refine ⟨d', ?_, ?_⟩
  · exact hd.append hwritten fun p hp => by
      obtain rfl := List.mem_singleton.mp hp
      exact hfirst
  · rw [verLoop, if_neg hne, if_neg (by omega)]
    refine hrun.trans ?_
    simp only [hread]
    rw [if_neg (Nat.not_lt.mpr hle), ← hcnt, hd', bind_ok]

/-- On a chain of records that are apart, a converter translates each of them and returns. The records of
a chain lie at growing offsets, so the fuel suffices. -/
theorem verLoop_chain (hV : V.Packed) (hroom : off + src.length ≤ n) (hdsz : src.length ≤ dsz) {s : Nat}
    {ps : List Slot} (h : VerChain (srcOrder host toFile swap) V src s ps) :
    ∀ (fuel : Nat) (dst : Mem n) (vnext : Nat), vnext ≠ 0 → src.length ≤ s + fuel → ps.Pairwise Slot.Apart →
    ∃ d, verLoop host toFile swap V off dsz src src.length (fuel + 1) dst vnext s s = .ok () d ∧
      Scattered (cvtObject host toFile swap) off src dst d ps := by
  induction h with
  | @last s as hin hnext haux hcnt =>
    intro fuel dst vnext hne hfuel hapart
    obtain ⟨d, hd, hrun⟩ := verLoop_turn host toFile swap hV hroom hdsz hin haux hcnt hapart dst hne fuel
    refine ⟨d, ?_, hd⟩
    obtain ⟨fuel, rfl⟩ : ∃ f, fuel = f + 1 := ⟨fuel - 1, by
      have := hV.ver_pos
      omega⟩
    rw [hrun, hnext, verLoop, if_pos rfl]
  | @next s as rest hin hnext haux hcnt _ ih =>
    intro fuel dst vnext hne hfuel hapart
    obtain ⟨hleft, hright, hcross⟩ := List.pairwise_append.mp hapart
    obtain ⟨d, hd, hrun⟩ := verLoop_turn host toFile swap hV hroom hdsz hin haux hcnt hleft dst hne fuel
    obtain ⟨fuel, rfl⟩ : ∃ f, fuel = f + 1 := ⟨fuel - 1, by
      have := hV.ver_pos
      omega⟩
    obtain ⟨d', hd', hwritten⟩ := ih fuel d _ hnext (by omega) hright
    exact ⟨d', hrun.trans hd', hd.append hwritten hcross⟩

end Loops

/-! ## The round trip -/

section RoundTrip

variable (host : ByteOrder) (swap : Bool) {V : VersionDef} {n n' : Nat}

/-- To memory and back: on a section that holds a chain of records with no bytes in common both
converters succeed, and every record comes back. -/
theorem cvtVersion_round_trip (hV : V = verdefDef ∨ V = verneedDef) {bs : List UInt8} {ps : List Slot}
    (hchain : VerChain (fileOrder host swap) V bs 0 ps) (hapart : ps.Pairwise Slot.Apart) (dst : Mem n)
    (dst' : Mem n') {off dsz off' dsz' : Nat} (hdsz : bs.length ≤ dsz) (hroom : off + bs.length ≤ n)
    (hdsz' : bs.length ≤ dsz') (hroom' : off' + bs.length ≤ n') :
    ∃ d d', cvtVersion host false V n dst off dsz bs bs.length swap = .ok () d ∧
      cvtVersion host true V n' dst' off' dsz' (window d.bytes off bs.length) bs.length swap = .ok () d' ∧
      ∀ p ∈ ps, window d'.bytes (off' + p.1) p.size = p.bytes bs := by
  have hpacked := packed_versionDef hV
  obtain ⟨d, hd, htom⟩ := @verLoop_chain host false swap V n off dsz bs hpacked hroom hdsz 0 ps hchain bs.length
    dst 0xFFFFFFFF (by decide) (by omega) hapart
  have hlen : (window d.bytes off bs.length).length = bs.length :=
    length_window (by rw [d.length_eq]; exact hroom)
  -- a record of the intermediate section
  have hmid : ∀ p ∈ ps, p.bytes (window d.bytes off bs.length) =
      tomObject host swap p.2 (zeroObject p.2) (p.bytes bs) := by
    intro p hp
    have hin := (hchain.members p hp).2
    have hrec : window d.bytes (off + p.1) p.size = tomObject host swap p.2 (zeroObject p.2) (p.bytes bs) :=
      htom.record p hp
    rw [Slot.bytes, window_window hin, hrec]
  have hsize : ∀ p ∈ ps, (p.bytes bs).length = packedSize p.2 ∧ isPacked 0 p.2 = true := by
    intro p hp
    obtain ⟨hfs, hin⟩ := hchain.members p hp
    refine ⟨length_window hin, ?_⟩
    rcases hfs with hfs | hfs
    · rw [hfs]
      exact hpacked.ver
    · rw [hfs]
      exact hpacked.aux
  have hchain' : VerChain host V (window d.bytes off bs.length) 0 ps := by
    refine hchain.transport hlen fun p hp i => ?_
    rw [hmid p hp, member, decode_tomObject host swap (hsize p hp).2 (hsize p hp).1]
    rfl
  obtain ⟨d', hd', htof⟩ := @verLoop_chain host true swap V n' off' dsz' (window d.bytes off bs.length) hpacked
    (by rw [hlen]; exact hroom') (by rw [hlen]; exact hdsz') 0 ps hchain' bs.length
    dst' 0xFFFFFFFF (by decide) (by omega) hapart
  rw [hlen] at hd'
  refine ⟨d, d', hd, hd', fun p hp => ?_⟩
  have hrec : window d'.bytes (off' + p.1) p.size =
      tofObject host swap p.2 (p.bytes (window d.bytes off bs.length)) := htof.record p hp
  rw [hrec, hmid p hp, tofObject_tomObject host swap (length_zeroObject p.2) (hsize p hp).1]

/-- Two version definitions of two names each in the other byte order, with four unused bytes behind the first name and
behind the first definition. -/
def twoVerdefs : List UInt8 :=
  [0, 1, 0, 0, 0, 1, 0, 2, 0, 0, 0, 9, 0, 0, 0, 20, 0, 0, 0, 44] ++
  [0, 0, 0, 5, 0, 0, 0, 12] ++ [1, 2, 3, 4] ++ [0, 0, 0, 6, 0, 0, 0, 0] ++ [5, 6, 7, 8] ++
  [0, 1, 0, 0, 0, 2, 0, 2, 0, 0, 0, 7, 0, 0, 0, 20, 0, 0, 0, 0] ++
  [0, 0, 0, 8, 0, 0, 0, 8] ++ [0, 0, 0, 3, 0, 0, 0, 0]

def twoSlots : List Slot :=
  [(0, verdefDef.ver), (20, verdefDef.aux), (32, verdefDef.aux), (44, verdefDef.ver), (64, verdefDef.aux),
    (72, verdefDef.aux)]

theorem verChain_twoVerdefs : VerChain .big verdefDef twoVerdefs 0 twoSlots :=
  .next (by decide) (by decide) (.next (by decide) (by decide) (.last (by decide) (by decide))) (by decide)
    (.last (by decide) (by decide) (.next (by decide) (by decide) (.last (by decide) (by decide))) (by decide))

theorem cvtVersion_round_trip_two : ∃ d d' : Mem 80,
    cvtVersion .little false verdefDef 80 (.fresh (fun _ => 0) 80) 0 80 twoVerdefs 80 true = .ok () d ∧
    cvtVersion .little true verdefDef 80 (.fresh (fun _ => 7) 80) 0 80 (window d.bytes 0 80) 80 true = .ok () d' ∧
    ∀ p ∈ twoSlots, window d'.bytes (0 + p.1) (Slot.size p) = Slot.bytes p twoVerdefs := by
  have hapart : twoSlots.Pairwise Slot.Apart := by decide
  exact cvtVersion_round_trip .little true (.inl rfl) verChain_twoVerdefs hapart (.fresh (fun _ => 0) 80)
    (.fresh (fun _ => 7) 80) (by decide) (by decide) (by decide) (by decide)

end RoundTrip

end LibElf.Toolchain
