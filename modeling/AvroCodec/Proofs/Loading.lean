import AvroCodec.Proofs.Block
import AvroCodec.Proofs.Storing

/-!
# Constructs of code that reads

What each construct stores, from what the code inside it stores. The loops over blocks keep an invariant
about the parts that have been read.
-/

namespace AvroCodec

open Code Block Variables Varint

namespace Reading

variable {r r₁ r₂ : Reading} {count index name : String} {n : Int} {bytes rest : List UInt8}

theorem integer_of_reads (hreads : Reads decode bytes n) (hrest : r.rest = bytes ++ rest) :
    r.integer = .ok (n, { r with rest }) := by
  unfold integer
  rw [hrest, hreads rest]
  rfl

theorem integerTo_of_reads (hreads : Reads decode bytes n) (hrest : r.rest = bytes ++ rest) :
    r.integerTo name = .ok (n, set { r with rest } name (.int n)) := by
  rw [integerTo, integer_of_reads hreads hrest]
  rfl

/-- The variables are the same, but for those that a loop counts in. -/
def Like (count index : String) (r r' : Reading) : Prop :=
  ∀ y, y ≠ count → y ≠ index → lookup y r'.bindings = lookup y r.bindings

theorem Like.set_count (h : Like count index r r₁) (v : Value) : Like count index r (r₁.set count v) :=
  fun y hcount hindex => (lookup_set_of_ne hcount r₁ v).trans (h y hcount hindex)

theorem like_set_index (r : Reading) (v : Value) : Like count index r (r.set index v) :=
  fun _ _ hindex => lookup_set_of_ne hindex r v

theorem Stored.like {V : String → Prop} {p : Place} {ks : List String} {held x : Value}
    (h : Stored V p ks held x r r₁) (hroot : ¬ V p.root) (hcount : V count) (hindex : V index)
    (hlike : Like count index r₁ r₂) : Stored V p ks held x r r₂ := by
  refine h.congr hroot fun y hy => hlike y ?_ ?_ <;>
  · rintro rfl
    contradiction

end Reading

namespace Code.Decoder

variable {x held : Value} {s index : String} {i : Nat} {body d : Decoder} {r : Reading}
  {ks : List String}

section Loops

variable {α : Type} {step : Reading → Except CodecError Reading} {enc : α → List UInt8}
  {I : List α → Reading → Prop} {count : String}

variable {r : Reading} {bound : Nat} {bs : List (Block α)}

theorem times_of_steps {parts done : List α} {rest : List UInt8} (turn : Nat)
    (hstep : ∀ done, ∀ q ∈ parts, ∀ rest r, r.rest = enc q ++ rest → I done r →
      ∃ r', step r = .ok r' ∧ r'.rest = rest ∧ I (done ++ [q]) r')
    (hkeep : ∀ done r r', I done r → r.Like count index r' → I done r')
    (hrest : r.rest = parts.flatMap enc ++ rest) (hinv : I done r) :
    ∃ r', times index step turn parts.length r = .ok r' ∧ r'.rest = rest ∧ I (done ++ parts) r' := by
  induction parts generalizing done r turn with
  | nil => exact ⟨r, rfl, hrest, by simpa using hinv⟩
  | cons q parts ih =>
    rw [List.flatMap_cons, List.append_assoc] at hrest
    obtain ⟨r₁, hr₁, hrest₁, hinv₁⟩ :=
      hstep done q List.mem_cons_self _ (r.set index (.int turn)) hrest (hkeep _ _ _ hinv (r.like_set_index _))
    obtain ⟨r₂, hr₂, hrest₂, hinv₂⟩ :=
      ih (turn + 1) (fun done q hq => hstep done q (List.mem_cons_of_mem _ hq)) hrest₁ hinv₁
    refine ⟨r₂, ?_, hrest₂, by simpa using hinv₂⟩
    simp only [List.length_cons, times, hr₁, hr₂]

theorem blocks_zero {rest : List UInt8}
    (hrest : r.rest = bytesOf 0 ++ rest) :
    blocks count index step (bound + 1) r = .ok (Reading.set { r with rest } count (.int 0)) := by
  rw [blocks, Reading.integerTo_of_reads reads_zero hrest]
  rfl

theorem negate_of_reads {n size : Int} {bytes rest : List UInt8} (hn : n ≠ -9223372036854775808)
    (hreads : Reads decode bytes size) (hrest : r.rest = bytes ++ rest) :
    negate count n r = .ok { r.set count (.int (-n)) with rest } := by
  have hread : (r.set count (.int (-n))).integer = .ok (size, _) := Reading.integer_of_reads hreads hrest
  rw [negate, if_neg hn, hread]
  rfl

variable (count step bound) in
/-- After the header of a block so many parts are read as the block has, and then the other blocks. -/
theorem exists_blocks_header {b : Block α} {rest : List UInt8} (hrest : r.rest = b.header ++ rest) :
    ∃ r', r'.rest = rest ∧ r.Like count index r' ∧ blocks count index step (bound + 1) r =
      times index step 0 b.parts.length r' >>= blocks count index step bound := by
  have hpos : 0 < b.parts.length := List.length_pos_iff.2 b.nonempty
  have hcount := b.count_lt
  have hlike : ∀ rest, r.Like count index { r with rest } := fun _ _ _ _ => rfl
  rw [blocks]
  unfold header at hrest
  split at hrest
  next =>
    refine ⟨_, rfl, (hlike rest).set_count (.int b.parts.length), ?_⟩
    rw [Reading.integerTo_of_reads (reads_natCast hcount) hrest]
    have hne : (b.parts.length : Int) ≠ 0 := by omega
    have hge : ¬ (b.parts.length : Int) < 0 := by omega
    simp only [bind, Except.bind, if_neg hne, if_neg hge, pure, Except.pure, Int.natAbs_natCast]
  next n hsize =>
    rw [List.append_assoc] at hrest
    have hfits : zigzag (-b.parts.length) < modulus :=
      (zigzag_lt_modulus_iff _).2 ⟨by omega, by omega⟩
    have hne : (-b.parts.length : Int) ≠ 0 := by omega
    have hlt : (-b.parts.length : Int) < 0 := by omega
    have hleast : (-b.parts.length : Int) ≠ -9223372036854775808 := by simp only [limit] at hcount; omega
    refine ⟨_, ?_, ((hlike rest).set_count (.int (-b.parts.length))).set_count (.int (- -b.parts.length)), ?_⟩
    · rfl
    rw [Reading.integerTo_of_reads (reads_bytesOf hfits) hrest]
    simp only [bind, Except.bind, if_neg hne, if_pos hlt, Int.natAbs_neg, Int.natAbs_natCast]
    rw [negate_of_reads hleast (reads_bytesOf (b.size_fits n hsize)) rfl]
    rfl

/-- The loop over blocks keeps an invariant about the parts that are done, whatever block they stand in.
The induction is on the blocks, and each takes one from the bound. -/
theorem blocks_of_steps {done : List α} {rest : List UInt8} (hbound : bs.length < bound)
    (hstep : ∀ done, ∀ q ∈ content bs, ∀ rest r, r.rest = enc q ++ rest → I done r →
      ∃ r', step r = .ok r' ∧ r'.rest = rest ∧ I (done ++ [q]) r')
    (hkeep : ∀ done r r', I done r → r.Like count index r' → I done r')
    (hrest : r.rest = allBytes enc bs ++ rest) (hinv : I done r) :
    ∃ r', blocks count index step bound r = .ok r' ∧ r'.rest = rest ∧ I (done ++ content bs) r' := by
  induction bs generalizing bound done r with
  | nil =>
    obtain ⟨bound, rfl⟩ := Nat.exists_eq_add_one.2 hbound
    have hdone := hkeep _ _ (Reading.set { r with rest } count (.int 0)) hinv
      (Reading.Like.set_count (fun _ _ _ => rfl) _)
    exact ⟨_, blocks_zero hrest, rfl, by simpa [content] using hdone⟩
  | cons b bs ih =>
    obtain ⟨bound, rfl⟩ := Nat.exists_eq_add_one.2 (Nat.zero_lt_of_lt hbound)
    rw [List.length_cons, Nat.add_lt_add_iff_right] at hbound
    rw [content_cons] at hstep ⊢
    rw [allBytes_cons, List.append_assoc, List.append_assoc] at hrest
    obtain ⟨r₀, hrest₀, hlike, hblocks⟩ := exists_blocks_header step count bound hrest
    obtain ⟨r₁, hr₁, hrest₁, hinv₁⟩ :=
      times_of_steps 0 (fun done q hq => hstep done q (List.mem_append_left _ hq)) hkeep hrest₀
        (hkeep _ _ _ hinv hlike)
    obtain ⟨r₂, hr₂, hrest₂, hinv₂⟩ :=
      ih hbound (fun done q hq => hstep done q (List.mem_append_right _ hq)) hrest₁ hinv₁
    refine ⟨r₂, ?_, hrest₂, by rwa [List.append_assoc] at hinv₂⟩
    rw [hblocks, hr₁]
    exact hr₂

theorem allBlocks_of_steps {rest : List UInt8}
    (hstep : ∀ done, ∀ q ∈ content bs, ∀ rest r, r.rest = enc q ++ rest → I done r →
      ∃ r', step r = .ok r' ∧ r'.rest = rest ∧ I (done ++ [q]) r')
    (hkeep : ∀ done r r', I done r → r.Like count index r' → I done r')
    (hrest : r.rest = allBytes enc bs ++ rest) (hinv : I [] r) :
    ∃ r', allBlocks count index step r = .ok r' ∧ r'.rest = rest ∧ I (content bs) r' := by
  refine blocks_of_steps ?_ hstep hkeep hrest hinv
  have hlen := length_le_allBytes enc bs
  rw [hrest, List.length_append]
  omega

end Loops

variable {call : String → List UInt8 → Except CodecError (Value × List UInt8)} {V W : String → Prop} {p : Place}
  {bytes rest : List UInt8} {cases : List (Json × Decoder)} {parts : List (String × Decoder × Value × List UInt8)}
  {symbols : List String} {r₁ : Reading} {count item key : String}

theorem stores_null : StoresBefore call V p (.null p) [] rest .null := by
  intro r ks held hrest hr
  obtain ⟨r', hassign, hrest', hstored⟩ := Reading.exists_assign V hr .null
  refine ⟨r', ?_, hrest'.trans hrest, hstored⟩
  rw [run, hassign]

theorem stores_primitive {type : String} {schema : Json}
    (h : Primitive.read type schema (bytes ++ rest) = .ok (x, rest)) :
    StoresBefore call V p (.primitive type schema p) bytes rest x := by
  intro r ks held hrest hr
  simp only [run]
  exact Reading.exists_readTo V h hrest hr

theorem stores_recur {name : String} (h : call name (bytes ++ rest) = .ok (x, rest)) :
    StoresBefore call V p (.recur name p) bytes rest x := by
  intro r ks held hrest hr
  simp only [run]
  exact Reading.exists_readTo V h hrest hr

theorem reads_readSymbol (hi : symbols[i]? = some s) (hlim : i < limit) :
    Reads (readSymbol (.arr (symbols.map .str))) (bytesOf i) (.str s) := by
  intro rest
  have hsymbol : (symbols.map Json.str)[i]? = some (.str s) := by
    rw [List.getElem?_map, hi]
    rfl
  unfold readSymbol
  rw [reads_natCast hlim rest]
  simp only [bind, Except.bind, hsymbol]
  rfl

theorem stores_enum (hi : symbols[i]? = some s) (hlim : i < limit) :
    Stores call V p (.enum p (.arr (symbols.map .str))) (bytesOf i) (.str s) := by
  intro rest r ks held hrest hr
  simp only [run]
  exact Reading.exists_readTo V (reads_readSymbol hi hlim rest) hrest hr

/-- Reading one item and adding it to the list. -/
theorem exists_appended {done : List Value} (hp : p.Clear V) (hitem : V item) (hWV : ∀ y, W y → V y)
    (h : StoresBefore call W (.of item) body bytes rest x) (hr : r.Reaches p ks held) (hrest : r₁.rest = bytes ++ rest)
    (hdone : Reading.Stored V p ks held (.list done) r r₁) :
    ∃ r', (do (← run call body r₁).append p item) = .ok r' ∧ r'.rest = rest ∧
      Reading.Stored V p ks held (.list (done ++ [x])) r r' := by
  have hne : p.root ≠ item := by
    intro he
    exact hp.root (he ▸ hitem)
  obtain ⟨r₂, hr₂, hrest₂, hstored₂⟩ := h r₁ [] .null hrest (Reading.reaches_variable ..)
  -- the item's own code leaves the list alone
  have hdone₂ : Reading.Stored V p ks held (.list done) r r₂ := by
    refine hdone.congr hp.root fun y hV => hstored₂.others y ?_ fun hW => hV (hWV y hW)
    rintro rfl
    exact hV hitem
  obtain ⟨u, hroot, hkeys, hwalk, u', hu', hstored'⟩ := hdone₂.assign hp hr (.list (done ++ [x]))
  refine ⟨r₂.set p.root u', ?_, hrest₂, hstored'⟩
  obtain ⟨w, hw, hitem₂⟩ := hstored₂.stored
  cases hw
  have hgetItem : r₂.get item = .ok x := Reading.get_eq_ok.2 hitem₂
  simp only [hr₂, bind, Except.bind, Reading.append, Reading.get_eq_ok.2 hroot, hkeys, hwalk,
    hgetItem]
  exact congrArg (Except.map _) hu'

theorem stores_array {bs : List (Block (Value × List UInt8))} (hp : p.Clear V) (hcount : V count)
    (hindex : V index) (hitem : V item) (hWV : ∀ y, W y → V y)
    (h : ∀ q ∈ content bs, Stores call W (.of item) body q.2 q.1) :
    Stores call V p (.array p index count item body) (allBytes (·.2) bs)
      (.list ((content bs).map (·.1))) := by
  intro rest r ks held hrest hr
  obtain ⟨r₀, hassign, hrest₀, hstored₀⟩ := Reading.exists_assign V hr (.list [])
  let Done (done : List (Value × List UInt8)) (r' : Reading) : Prop :=
    Reading.Stored V p ks held (.list (done.map (·.1))) r r'
  have hloop : ∃ r', allBlocks count index (fun r => do (← run call body r).append p item) r₀ = .ok r' ∧
      r'.rest = rest ∧ Done (content bs) r' := by
    refine allBlocks_of_steps (I := Done) ?_ (fun _ _ _ hinv => hinv.like hp.root hcount hindex)
      (hrest₀.trans hrest) hstored₀
    intro done q hq rest r₁ hrest₁ hinv
    simp only [Done, List.map_append]
    exact exists_appended hp hitem hWV (h q hq rest) hr hrest₁ hinv
  obtain ⟨r', hr', hrest', hstored'⟩ := hloop
  refine ⟨r', ?_, hrest', hstored'⟩
  rw [run, hassign]
  exact hr'

theorem runParts_append (xs ys : List Decoder) (r : Reading) :
    runParts call (xs ++ ys) r = runParts call xs r >>= runParts call ys := by
  induction xs generalizing r with
  | nil => rfl
  | cons d xs ih =>
    rw [List.cons_append, runParts, runParts]
    cases run call d r with
    | error e => rfl
    | ok r₁ => exact ih r₁

theorem runParts_stores (hp : p.Clear V) (hnames : ∀ q ∈ parts, Form.isFieldName q.1 = true)
    (h : ∀ front q back, parts = front ++ q :: back →
      StoresBefore call V (p.member (.str q.1)) q.2.1 q.2.2.2 (back.flatMap (·.2.2.2) ++ rest) q.2.2.1) {r₀ : Reading}
    (done : List (String × Value)) (hr : r.Reaches p ks held) (hrest : r₀.rest = parts.flatMap (·.2.2.2) ++ rest)
    (hstored : Reading.Stored V p ks held (.dict (Value.puts done)) r r₀) :
    ∃ r', runParts call (parts.map (·.2.1)) r₀ = .ok r' ∧ r'.rest = rest ∧
      Reading.Stored V p ks held (.dict (Value.puts (done ++ parts.map fun q => (q.1, q.2.2.1)))) r r' := by
  induction parts generalizing r₀ done with
  | nil => exact ⟨r₀, rfl, hrest, by simpa using hstored⟩
  | cons q parts ih =>
    rw [List.flatMap_cons, List.append_assoc] at hrest
    obtain ⟨u, hreach, hput⟩ := hstored.memberEntry hp hr (hnames q List.mem_cons_self)
    obtain ⟨r₁, hr₁, hrest₁, hstored₁⟩ := h [] q parts rfl r₀ _ u hrest hreach
    have hdone := hput _ _ hstored₁
    rw [Value.putEntry_dict, ← Value.puts_append_singleton _ (q.1, q.2.2.1)] at hdone
    obtain ⟨r', hr', hrest', hstored'⟩ :=
      ih (fun q hq => hnames q (List.mem_cons_of_mem _ hq))
        (fun front q' back he => h (q :: front) q' back (congrArg (q :: ·) he)) _ hrest₁ hdone
    refine ⟨r', ?_, hrest', by simpa using hstored'⟩
    rw [List.map_cons, runParts, hr₁]
    exact hr'

theorem stores_record (hp : p.Clear V) (hnames : ∀ q ∈ parts, Form.isFieldName q.1 = true)
    (h : ∀ front q back, parts = front ++ q :: back →
      StoresBefore call V (p.member (.str q.1)) q.2.1 q.2.2.2 (back.flatMap (·.2.2.2) ++ rest) q.2.2.1) :
    StoresBefore call V p (.record p (parts.map (·.2.1))) (parts.flatMap (·.2.2.2)) rest
      (.dict (Value.puts (parts.map fun q => (q.1, q.2.2.1)))) := by
  intro r ks held hrest hr
  obtain ⟨r₀, hassign, hrest₀, hstored₀⟩ := Reading.exists_assign V hr (.map [])
  obtain ⟨r', hr', hrest', hstored'⟩ :=
    runParts_stores hp hnames h [] hr (hrest₀.trans hrest) hstored₀
  refine ⟨r', ?_, hrest', hstored'⟩
  rw [run, hassign]
  exact hr'

theorem exists_entered {done : List (String × Value)} (hp : p.Clear V) (hkey : V key) (hWV : ∀ y, W y → V y)
    (hread : Primitive.readText r₁.rest = .ok (s, bytes ++ rest))
    (h : StoresBefore call W (p.entry key) body bytes rest x) (hr : r.Reaches p ks held)
    (hdone : Reading.Stored V p ks held (.dict (Value.puts done)) r r₁) :
    ∃ r', (do
        let q ← Primitive.readText r₁.rest
        run call body (Reading.set { r₁ with rest := q.2 } key (.str q.1))) = .ok r' ∧ r'.rest = rest ∧
      Reading.Stored V p ks held (.dict (Value.puts (done ++ [(s, x)]))) r r' := by
  obtain ⟨u, hreach, hput⟩ := hdone.boundEntry hp hr hkey (bytes ++ rest) s
  obtain ⟨r₂, hr₂, hrest₂, hstored₂⟩ := h _ _ u rfl hreach
  refine ⟨r₂, ?_, hrest₂, ?_⟩
  · rw [hread]
    exact hr₂
  · have hdone' := hput _ _ (hstored₂.mono hWV)
    rw [Value.putEntry_dict, ← Value.puts_append_singleton _ (s, x)] at hdone'
    exact hdone'

theorem stores_map {bs : List (Block (String × Value × List UInt8))}
    (htext : ∀ q ∈ content bs, q.1.toUTF8.toList.length < limit) (hp : p.Clear V) (hcount : V count)
    (hindex : V index) (hkey : V key) (hWV : ∀ y, W y → V y)
    (h : ∀ q ∈ content bs, Stores call W (p.entry key) body q.2.2 q.2.1) :
    Stores call V p (.map p key count index body)
      (allBytes (fun q => Primitive.textOf q.1 ++ q.2.2) bs)
      (.dict (Value.puts ((content bs).map fun q => (q.1, q.2.1)))) := by
  intro rest r ks held hrest hr
  obtain ⟨r₀, hassign, hrest₀, hstored₀⟩ := Reading.exists_assign V hr (.map [])
  let entry (r : Reading) : Except CodecError Reading := do
    let q ← Primitive.readText r.rest
    run call body (Reading.set { r with rest := q.2 } key (.str q.1))
  let Done (done : List (String × Value × List UInt8)) (r' : Reading) : Prop :=
    Reading.Stored V p ks held (.dict (Value.puts (done.map fun q => (q.1, q.2.1)))) r r'
  have hloop : ∃ r', allBlocks count index entry r₀ = .ok r' ∧ r'.rest = rest ∧
      Done (content bs) r' := by
    refine allBlocks_of_steps (I := Done) ?_ (fun _ _ _ hinv => hinv.like hp.root hcount hindex)
      (hrest₀.trans hrest) hstored₀
    intro done q hq rest r₁ hrest₁ hinv
    simp only [Done, List.map_append]
    refine exists_entered hp hkey hWV ?_ (h q hq rest) hr hinv
    rw [hrest₁, List.append_assoc, Primitive.reads_textOf (htext q hq)]
  obtain ⟨r', hr', hrest', hstored'⟩ := hloop
  refine ⟨r', ?_, hrest', hstored'⟩
  rw [run, hassign]
  exact hr'

theorem runCases_of_lt {n : Nat} (hn : lookup index r.bindings = some (.int n)) (h : n < i) :
    runCases call index i cases r = .ok r := by
  induction cases generalizing i with
  | nil => rfl
  | cons c cases ih =>
    have hholds : r.holds index i = false := by
      simp only [Reading.holds, hn, decide_eq_false_iff_not]
      omega
    rw [runCases, hholds]
    exact ih (by omega)

theorem runCases_eq {t : Json} {n m : Nat} (hm : m = i + n) (hholds : lookup index r.bindings = some (.int m))
    (h : cases[n]? = some (t, d))
    (hkeep : ∀ r', run call d r = .ok r' → lookup index r'.bindings = some (.int m)) :
    runCases call index i cases r = run call d r := by
  induction cases generalizing i n with
  | nil => cases h
  | cons c cases ih =>
    cases n with
    | zero =>
      cases h
      have hhere : r.holds index i = true := by simp [Reading.holds, hholds, hm]
      rw [runCases, hhere]
      cases hrun : run call d r with
      | error e => rfl
      | ok r' => exact runCases_of_lt (hkeep r' hrun) (by omega)
    | succ n =>
      have hother : r.holds index i = false := by
        simp only [Reading.holds, hholds, decide_eq_false_iff_not]
        omega
      rw [runCases, hother]
      exact ih (by omega) h

theorem stores_union {wrapped : Bool} {t : Json} (hp : p.Clear V) (hindex : V index)
    (hW : ∀ y, W y → V y ∧ y ≠ index) (hi : cases[i]? = some (t, d)) (hlim : i < limit)
    (h : StoresBefore call W p d bytes rest x) :
    StoresBefore call V p (.union p index wrapped cases) (bytesOf i ++ bytes) rest x := by
  intro r ks held hrest hr
  rw [List.append_assoc] at hrest
  have hread : r.integerTo index = _ := Reading.integerTo_of_reads (reads_natCast hlim) hrest
  generalize hr₀ : Reading.set { r with rest := bytes ++ rest } index (.int i) = r₀ at hread
  have hsame : ∀ y, ¬ V y → lookup y r₀.bindings = lookup y r.bindings := by
    rintro y hy
    have hne : y ≠ index := by
      rintro rfl
      exact hy hindex
    rw [← hr₀, Reading.lookup_set_of_ne hne]
  obtain ⟨r', hr', hrest', hstored⟩ := h r₀ ks held (by rw [← hr₀]; rfl) (hr.congr hp hsame)
  have hroot : index ≠ p.root := by
    rintro rfl
    exact hp.root hindex
  have hkept : lookup index r'.bindings = lookup index r₀.bindings :=
    hstored.others index hroot fun hy => (hW index hy).2 rfl
  have hholds : lookup index r₀.bindings = some (.int i) := by
    rw [← hr₀, Reading.lookup_set_self]
  refine ⟨r', ?_, hrest', hstored.stored, fun y hy hVy => ?_⟩
  · rw [run, hread]
    refine (runCases_eq (Nat.zero_add i).symm hholds hi fun r₁ hr₁ => ?_).trans hr'
    cases hr'.symm.trans hr₁
    exact hkept.trans hholds
  · rw [hstored.others y hy fun hWy => hVy (hW y hWy).1, hsame y hVy]

theorem apply_eq_ok (h : StoresBefore call V (.of "data") d bytes rest x) :
    apply call d (bytes ++ rest) = .ok (x, rest) := by
  obtain ⟨r', hr', hrest', hstored⟩ := h ⟨bytes ++ rest, []⟩ [] .null rfl (Reading.reaches_variable ..)
  obtain ⟨u, hu, hlookup⟩ := hstored.stored
  cases hu
  have hget : r'.get "data" = .ok x := Reading.get_eq_ok.2 hlookup
  unfold apply
  rw [hr']
  simp only [bind, Except.bind, hget, hrest']
  rfl

end Code.Decoder

end AvroCodec
