import Mathlib.Data.List.TakeWhile
import Spoond.Lib.Ip.Text

namespace Spoond.Lib.Ip

open List

theorem ofDigits_append (base : Nat) (ds : List Nat) (d : Nat) :
    ofDigits base (ds ++ [d]) = ofDigits base ds * base + d := by
  simp [ofDigits]

theorem ofDigits_digits (base k n : Nat) : ofDigits base (digits base k n) = n % base ^ k := by
  induction k generalizing n with
  | zero => simp [digits, ofDigits, Nat.mod_one]
  | succ k ih => rw [digits, ofDigits_append, ih, Nat.pow_succ', Nat.mod_mul, Nat.mul_comm, Nat.add_comm]

@[simp] theorem length_digits (base k n : Nat) : (digits base k n).length = k := by
  induction k generalizing n with
  | zero => rfl
  | succ k ih => simp [digits, ih]

theorem digits_lt (hbase : 0 < base) (hd : d ∈ digits base k n) : d < base := by
  induction k generalizing n with
  | zero => simp [digits] at hd
  | succ k ih =>
    simp only [digits, mem_append, mem_singleton] at hd
    rcases hd with hd | rfl
    · exact ih hd
    · exact Nat.mod_lt _ hbase

theorem parseOctet_toDigits (hn : n < 256) : parseOctet (Nat.toDigits 10 n) = some n := by
  have hall : ∀ n < 256, (Nat.toDigits 10 n).length = 1 ∨ (Nat.toDigits 10 n).head? ≠ some '0' := by decide +kernel
  have hdigits : (Nat.toDigits 10 n).all Char.isDigit = true := by
    simp only [all_eq_true]
    exact fun c hc => Nat.isDigit_of_mem_toDigits (by decide) (by decide) hc
  have hle : Nat.ofDigitChars 10 (Nat.toDigits 10 n) 0 ≤ 255 := by
    rw [Nat.ofDigitChars_ten_toDigits]
    omega
  rw [parseOctet, if_pos ⟨Nat.toDigits_ne_nil, hdigits, hall n hn, hle⟩, Nat.ofDigitChars_ten_toDigits]

theorem mapM_parseOctet {ds : List Nat} (h : ∀ d ∈ ds, d < 256) :
    (ds.map (Nat.toDigits 10)).mapM parseOctet = some ds := by
  induction ds with
  | nil => rfl
  | cons d ds ih =>
    simp only [mem_cons, forall_eq_or_imp] at h
    simp [parseOctet_toDigits h.1, ih h.2]

theorem not_mem_toDigits_ten (hc : c.isDigit = false) : c ∉ Nat.toDigits 10 n := by
  intro hmem
  simp [Nat.isDigit_of_mem_toDigits (by decide) (by decide) hmem] at hc

theorem parseIPv4Fields_dotted (ip : IP) : parseIPv4Fields (dotted ip) = some (digits 256 4 ip.toNat) := by
  have hsplit : (dotted ip).splitOn '.' = (digits 256 4 ip.toNat).map (Nat.toDigits 10) := by
    refine splitOn_intercalate '.' ?_ (by simp [digits])
    intro l hl
    obtain ⟨d, -, rfl⟩ := mem_map.1 hl
    exact not_mem_toDigits_ten (by decide)
  rw [parseIPv4Fields, hsplit, if_pos (by simp), mapM_parseOctet fun d hd => digits_lt (by decide) hd]

theorem isHex_digitChar : ∀ d < 16, isHex (Nat.digitChar d) = true ∧ hexDigit (Nat.digitChar d) = d := by
  decide

theorem toDigits_hex (n : Nat) : (∀ c ∈ Nat.toDigits 16 n, isHex c = true) ∧ hexValue (Nat.toDigits 16 n) = n := by
  induction n using Nat.strongRecOn with
  | _ n ih =>
    rw [Nat.toDigits_eq_if (by decide)]
    split_ifs with hlt
    · obtain ⟨hhex, hvalue⟩ := isHex_digitChar n hlt
      exact ⟨by simpa using hhex, by simpa [hexValue] using hvalue⟩
    · obtain ⟨hhex, hvalue⟩ := isHex_digitChar (n % 16) (Nat.mod_lt _ (by decide))
      obtain ⟨ihhex, ihvalue⟩ := ih (n / 16) (by omega)
      refine ⟨fun c hc => ?_, ?_⟩
      · simp only [mem_append, mem_singleton] at hc
        rcases hc with hc | rfl
        · exact ihhex c hc
        · exact hhex
      · simp only [hexValue, foldl_append, foldl_cons, foldl_nil] at ihvalue ⊢
        rw [ihvalue, hvalue]
        omega

def Ends (rest : Text) : Prop :=
  ∀ c ∈ rest.head?, isHex c = false

theorem takeWhile_toDigits (n : Nat) (rest : Text) (hrest : Ends rest) :
    (Nat.toDigits 16 n ++ rest).takeWhile isHex = Nat.toDigits 16 n := by
  rw [takeWhile_append_of_pos (toDigits_hex n).1]
  cases rest with
  | nil => simp
  | cons c rest => simp [hrest c rfl]

theorem length_toDigits_hex (hn : n < 65536) : (Nat.toDigits 16 n).length ≤ 4 :=
  (Nat.length_toDigits_le_iff (by decide) (by decide)).2 (by simpa using hn)

section
variable {g room : Nat} {groups : List Nat} {ellipsis : Option Nat}

theorem parseGroups_last (hg : g < 65536) :
    parseGroups (room + 1) (Nat.toDigits 16 g) groups ellipsis = some ([], groups ++ [g], ellipsis) := by
  have hhex := takeWhile_toDigits g [] (by simp [Ends])
  rw [append_nil] at hhex
  have hlen := length_toDigits_hex hg
  simp [parseGroups, hhex, Nat.toDigits_ne_nil, (toDigits_hex g).2, hlen]

theorem parseGroups_colon (hg : g < 65536) (hc : c ≠ ':') :
    parseGroups (room + 1) (Nat.toDigits 16 g ++ ':' :: c :: rest) groups ellipsis =
      parseGroups room (c :: rest) (groups ++ [g]) ellipsis := by
  have hhex := takeWhile_toDigits g (':' :: c :: rest) (by simp [Ends, isHex])
  have hlen := length_toDigits_hex hg
  simp [parseGroups, hhex, Nat.toDigits_ne_nil, (toDigits_hex g).2, hlen, hc]

theorem parseGroups_ellipsis (hg : g < 65536) :
    parseGroups (room + 1) (Nat.toDigits 16 g ++ ':' :: ':' :: rest) groups none =
      if rest = [] then some ([], groups ++ [g], some (groups.length + 1))
      else parseGroups room rest (groups ++ [g]) (some (groups.length + 1)) := by
  have hhex := takeWhile_toDigits g (':' :: ':' :: rest) (by simp [Ends, isHex])
  have hlen := length_toDigits_hex hg
  simp [parseGroups, hhex, Nat.toDigits_ne_nil, (toDigits_hex g).2, hlen]

end

theorem hexText_cons_cons (g g' : Nat) (gs : List Nat) :
    hexText (g :: g' :: gs) = Nat.toDigits 16 g ++ ':' :: hexText (g' :: gs) := by
  simp [hexText, intercalate]

theorem hexText_head (hgs : gs ≠ []) : ∃ c rest, hexText gs = c :: rest ∧ isHex c = true := by
  obtain ⟨g, gs, rfl⟩ := exists_cons_of_ne_nil hgs
  cases hdigits : Nat.toDigits 16 g with
  | nil => exact absurd hdigits Nat.toDigits_ne_nil
  | cons c rest =>
    have hhex : isHex c = true := (toDigits_hex g).1 c (by simp [hdigits])
    cases gs with
    | nil => exact ⟨c, rest, by simp [hexText, intercalate, hdigits], hhex⟩
    | cons g' gs => exact ⟨c, rest ++ ':' :: hexText (g' :: gs), by simp [hexText_cons_cons, hdigits], hhex⟩

theorem ne_colon_of_isHex (h : isHex c = true) : c ≠ ':' := by
  rintro rfl
  exact absurd h (by decide)

-- All groups but the last are read one by one.
theorem parseGroups_init (room g : Nat) (ellipsis : Option Nat) (gs groups : List Nat) (tail : Text)
    (hgs : ∀ d ∈ gs, d < 65536) :
    parseGroups (room + gs.length) (hexText (gs ++ [g]) ++ tail) groups ellipsis =
      parseGroups room (Nat.toDigits 16 g ++ tail) (groups ++ gs) ellipsis := by
  induction gs generalizing groups with
  | nil => simp [hexText, intercalate]
  | cons g' gs ih =>
    obtain ⟨c, rest, htext, hhex⟩ := hexText_head (concat_ne_nil g gs)
    obtain ⟨h, t, hsplit⟩ := exists_cons_of_ne_nil (concat_ne_nil g gs)
    have hrest := ih (groups ++ [g']) fun d hd => hgs d (mem_cons_of_mem _ hd)
    rw [htext, cons_append] at hrest
    rw [cons_append, hsplit, hexText_cons_cons, ← hsplit, htext, length_cons, ← Nat.add_assoc, append_assoc,
      cons_append, cons_append, parseGroups_colon (hgs g' (by simp)) (ne_colon_of_isHex hhex), hrest, append_assoc]
    rfl

section
variable {gs : List Nat} (hgs : ∀ d ∈ gs, d < 65536) (hne : gs ≠ []) (hroom : gs.length ≤ room)
include hgs hne hroom

theorem parseGroups_hexText (groups : List Nat) (ellipsis : Option Nat) :
    parseGroups room (hexText gs) groups ellipsis = some ([], groups ++ gs, ellipsis) := by
  obtain ⟨init, g, rfl⟩ := (eq_nil_or_concat' gs).resolve_left hne
  obtain ⟨more, rfl⟩ := Nat.exists_eq_add_of_le hroom
  have hinit := parseGroups_init (more + 1) g ellipsis init groups []
    fun d hd => hgs d (mem_append_left _ hd)
  rw [append_nil, append_nil, parseGroups_last (hgs g (by simp))] at hinit
  simpa [Nat.add_comm, Nat.add_left_comm] using hinit

theorem parseGroups_hexText_ellipsis (rest : Text) :
    parseGroups room (hexText gs ++ ':' :: ':' :: rest) [] none =
      if rest = [] then some ([], gs, some gs.length) else parseGroups (room - gs.length) rest gs (some gs.length) := by
  obtain ⟨init, g, rfl⟩ := (eq_nil_or_concat' gs).resolve_left hne
  obtain ⟨more, rfl⟩ := Nat.exists_eq_add_of_le hroom
  have hinit := parseGroups_init (more + 1) g none init [] (':' :: ':' :: rest)
    fun d hd => hgs d (mem_append_left _ hd)
  rw [parseGroups_ellipsis (hgs g (by simp))] at hinit
  simpa [Nat.add_comm, Nat.add_left_comm] using hinit

end

theorem mem_hexText (gs : List Nat) (hc : c ∈ hexText gs) : isHex c = true ∨ c = ':' := by
  induction gs with
  | nil => simp [hexText, intercalate] at hc
  | cons g gs ih =>
    cases gs with
    | nil =>
      have hmem : c ∈ Nat.toDigits 16 g := by simpa [hexText, intercalate] using hc
      exact .inl ((toDigits_hex g).1 c hmem)
    | cons g' gs =>
      rw [hexText_cons_cons, mem_append, mem_cons] at hc
      rcases hc with hc | hc | hc
      · exact .inl ((toDigits_hex g).1 c hc)
      · exact .inr hc
      · exact ih hc

theorem zeroRun_zeros (h : zeroRun groups = some (start, run)) :
    2 ≤ run ∧ groups = groups.take start ++ replicate run 0 ++ groups.drop (start + run) := by
  have hfold : ∀ (indices : List Nat) (best : Option (Nat × Nat)),
      (∀ s r, best = some (s, r) → 2 ≤ r ∧ r = ((groups.drop s).takeWhile (· = 0)).length) →
      ∀ s r, indices.foldl (fun best i =>
        let run := ((groups.drop i).takeWhile (· = 0)).length
        if 2 ≤ run ∧ (best.map (·.2)).getD 0 < run then some (i, run) else best) best = some (s, r) →
        2 ≤ r ∧ r = ((groups.drop s).takeWhile (· = 0)).length := by
    intro indices
    induction indices with
    | nil => exact fun best hbest => hbest
    | cons i indices ih =>
      intro best hbest
      refine ih _ fun s r heq => ?_
      dsimp only at heq
      split_ifs at heq with hrun
      · cases heq
        exact ⟨hrun.1, rfl⟩
      · exact hbest s r heq
  obtain ⟨hrun, hlen⟩ := hfold _ none (by simp) start run h
  refine ⟨hrun, ?_⟩
  have hzeros : (groups.drop start).takeWhile (· = 0) = replicate run 0 := by
    rw [eq_replicate_iff]
    exact ⟨hlen.symm, fun d hd => by simpa using mem_takeWhile_imp hd⟩
  have htake : (groups.drop start).take run = replicate run 0 := by
    have htake := prefix_iff_eq_take.1 <| takeWhile_prefix (l := groups.drop start) (· = 0)
    rw [← hlen, hzeros] at htake
    exact htake.symm
  have hdrop : groups.drop start = replicate run 0 ++ groups.drop (start + run) := by
    rw [← drop_drop, ← htake, take_append_drop]
  rw [append_assoc, ← hdrop, take_append_drop]

theorem percent_not_mem_hexText (gs : List Nat) : '%' ∉ hexText gs := by
  intro hmem
  rcases mem_hexText gs hmem with h | h <;> exact absurd h (by decide)

theorem parseIPv6_hex (hgs : gs ≠ []) (tail : Text) (hzone : '%' ∉ tail) :
    parseIPv6 (hexText gs ++ tail) = (parseGroups 8 (hexText gs ++ tail) [] none).bind joinGroups := by
  obtain ⟨c, rest, htext, hc⟩ := hexText_head hgs
  have hpercent : '%' ∉ hexText gs ++ tail := by simp [percent_not_mem_hexText, hzone]
  rw [htext, cons_append] at hpercent ⊢
  unfold parseIPv6
  rw [if_neg hpercent]
  split
  case h_1 heq | h_2 heq =>
    rw [(cons.inj heq).1] at hc
    exact absurd hc (by decide)
  case h_3 => rfl

theorem parseIPv6_colons (hgs : gs ≠ []) :
    parseIPv6 (':' :: ':' :: hexText gs) = (parseGroups 8 (hexText gs) [] (some 0)).bind joinGroups := by
  obtain ⟨c, rest, htext, -⟩ := hexText_head hgs
  have hpercent : '%' ∉ ':' :: ':' :: hexText gs := by simp [percent_not_mem_hexText]
  rw [htext] at hpercent ⊢
  unfold parseIPv6
  rw [if_neg hpercent]
  rfl

theorem joinGroups_expanded (hlen : left.length + run + right.length = 8) (hrun : 2 ≤ run) :
    joinGroups ([], left ++ right, some left.length) =
      some (BitVec.ofNat 128 (ofDigits 65536 (left ++ replicate run 0 ++ right))) := by
  have hshort : (left ++ right).length < 8 := by
    rw [length_append]
    omega
  have hzeros : 8 - (left ++ right).length = run := by
    rw [length_append]
    omega
  simp only [joinGroups, if_pos hshort, hzeros, take_left, drop_left]

theorem parseIPv6_expanded (hlen : left.length + run + right.length = 8) (hrun : 2 ≤ run)
    (hleft : ∀ d ∈ left, d < 65536) (hright : ∀ d ∈ right, d < 65536) :
    parseIPv6 (hexText left ++ ':' :: ':' :: hexText right) =
      some (BitVec.ofNat 128 (ofDigits 65536 (left ++ replicate run 0 ++ right))) := by
  have hjoin := joinGroups_expanded hlen hrun
  cases left with
  | nil =>
    cases right with
    | nil =>
      obtain rfl : run = 8 := by simpa using hlen
      decide +kernel
    | cons g gs =>
      rw [length_nil] at hlen
      simp only [hexText, map_nil, intercalate_nil, nil_append]
      rw [← hexText, parseIPv6_colons (cons_ne_nil g gs), parseGroups_hexText hright (cons_ne_nil g gs) (by omega)]
      exact hjoin
  | cons g gs =>
    rw [parseIPv6_hex (cons_ne_nil g gs) _ (by simp [percent_not_mem_hexText]),
      parseGroups_hexText_ellipsis hleft (cons_ne_nil g gs) (by omega)]
    cases right with
    | nil => simpa [hexText] using hjoin
    | cons d ds =>
      obtain ⟨c, rest, htext, -⟩ := hexText_head (cons_ne_nil d ds)
      rw [if_neg (by simp [htext]), parseGroups_hexText hright (cons_ne_nil d ds) (by omega)]
      exact hjoin

theorem parseIPv6_groupsText (groups : List Nat) (hlen : groups.length = 8) (hgroups : ∀ d ∈ groups, d < 65536) :
    parseIPv6 (groupsText groups) = some (BitVec.ofNat 128 (ofDigits 65536 groups)) := by
  rw [groupsText]
  cases hrun : zeroRun groups with
  | none =>
    have hne : groups ≠ [] := ne_nil_of_length_pos (by omega)
    have hparse := parseIPv6_hex hne [] (by simp)
    rw [append_nil, parseGroups_hexText hgroups hne (by omega)] at hparse
    simpa [joinGroups, hlen] using hparse
  | some best =>
    obtain ⟨start, run⟩ := best
    obtain ⟨htwo, hsplit⟩ := zeroRun_zeros hrun
    have hlen' := congrArg length hsplit
    rw [hlen, length_append, length_append, length_replicate] at hlen'
    dsimp only
    rw [parseIPv6_expanded hlen'.symm htwo (fun d hd => hgroups d (mem_of_mem_take hd))
      (fun d hd => hgroups d (mem_of_mem_drop hd)), ← hsplit]

theorem find?_sign {s : Text} (hmem : x ∈ s) (hx : x = '.' ∨ x = ':') (honly : ∀ c ∈ s, isHex c = true ∨ c = x) :
    s.find? (fun c => c = '.' || c = ':' || c = '%') = some x := by
  cases hfind : s.find? (fun c => c = '.' || c = ':' || c = '%') with
  | none =>
    have hnone := find?_eq_none.1 hfind x hmem
    rcases hx with rfl | rfl <;> exact absurd rfl hnone
  | some c =>
    rcases honly c (mem_of_find?_eq_some hfind) with hhex | rfl
    · have hsign := find?_some hfind
      simp only [Bool.or_eq_true, decide_eq_true_eq] at hsign
      rcases hsign with (rfl | rfl) | rfl <;> exact absurd hhex (by decide)
    · rfl

theorem mem_groupsText (groups : List Nat) (hc : c ∈ groupsText groups) : isHex c = true ∨ c = ':' := by
  rw [groupsText] at hc
  split at hc
  · exact mem_hexText _ hc
  · rw [mem_append, mem_cons, mem_cons] at hc
    rcases hc with hc | hc | hc | hc
    · exact mem_hexText _ hc
    · exact .inr hc
    · exact .inr hc
    · exact mem_hexText _ hc

theorem colon_mem_groupsText (groups : List Nat) (hlen : groups.length = 8) : ':' ∈ groupsText groups := by
  rw [groupsText]
  split
  · match groups, hlen with
    | g :: g' :: gs, _ => simp [hexText_cons_cons]
  · simp

theorem parseAddr_groupsText (groups : List Nat) (hlen : groups.length = 8) (hgroups : ∀ d ∈ groups, d < 65536) :
    parseAddr (groupsText groups) = some (addr6 (BitVec.ofNat 128 (ofDigits 65536 groups))) := by
  rw [parseAddr, find?_sign (colon_mem_groupsText groups hlen) (.inr rfl) fun c => mem_groupsText groups]
  simp [parseIPv6_groupsText groups hlen hgroups]

theorem mem_dotted (ip : IP) (hc : c ∈ dotted ip) : isHex c = true ∨ c = '.' := by
  have hdigit : ∀ d, c ∈ Nat.toDigits 10 d → isHex c = true ∨ c = '.' := fun d hd => by
    simp [isHex, Nat.isDigit_of_mem_toDigits (by decide) (by decide) hd]
  simp only [dotted, digits, nil_append, map_cons, map_nil, cons_append, intercalate,
    intersperse, flatten_cons, flatten_nil, append_nil, mem_append, mem_cons] at hc
  rcases hc with hc | hc | hc | hc | hc | hc | hc
  all_goals first | exact .inr hc | exact hdigit _ hc

theorem dot_mem_dotted (ip : IP) : '.' ∈ dotted ip := by
  simp [dotted, digits, intercalate]

theorem parseAddr_dotted (ip : IP) : parseAddr (dotted ip) = some (addr4 ip.toNat) := by
  have hvalue : ofDigits 256 (digits 256 4 ip.toNat) = ip.toNat % 2 ^ 32 := by
    rw [ofDigits_digits]
    rfl
  rw [parseAddr, find?_sign (dot_mem_dotted ip) (.inl rfl) fun c => mem_dotted ip]
  simp [parseIPv4Fields_dotted, hvalue, addr4, ofV4]

theorem parseAddr_ipText (ip : IP) : parseAddr (ipText ip) = some (if is4 ip then addr4 ip.toNat else addr6 ip) := by
  rw [ipText]
  cases h4 : is4 ip with
  | true => simpa using parseAddr_dotted ip
  | false =>
    have hvalue : BitVec.ofNat 128 (ofDigits 65536 (digits 65536 8 ip.toNat)) = ip := by
      rw [ofDigits_digits]
      apply BitVec.eq_of_toNat_eq
      have := ip.isLt
      simp only [BitVec.toNat_ofNat]
      omega
    have hparse := parseAddr_groupsText (digits 65536 8 ip.toNat) (by simp) fun d hd => digits_lt (by decide) hd
    rw [hvalue] at hparse
    simpa using hparse

theorem parseIP_ipText (ip : IP) : parseIP (ipText ip) = some ip := by
  rw [parseIP, parseAddr_ipText]
  cases h4 : is4 ip with
  | true => simp [addr4, ofV4_low ip h4]
  | false => simp [addr6]

theorem slash_not_mem_ipText (ip : IP) : '/' ∉ ipText ip := by
  rw [ipText]
  split_ifs with h4
  · intro hc
    rcases mem_dotted ip hc with h | h <;> exact absurd h (by decide)
  · intro hc
    rcases mem_groupsText _ hc with h | h <;> exact absurd h (by decide)

theorem parseMask_toDigits (n : Nat) : parseMask (Nat.toDigits 10 n) = some n := by
  have hdigits : (Nat.toDigits 10 n).all Char.isDigit = true := by
    simp only [all_eq_true]
    exact fun c hc => Nat.isDigit_of_mem_toDigits (by decide) (by decide) hc
  rw [parseMask, if_pos ⟨Nat.toDigits_ne_nil, hdigits⟩, Nat.ofDigitChars_ten_toDigits]

theorem parseCIDR_slash (hslash : '/' ∉ addr) (haddr : parseAddr addr = some a) (h : ones ≤ a.bits) :
    parseCIDR (addr ++ '/' :: Nat.toDigits 10 ones) = some (a.net ones h) := by
  have hpass : ∀ c ∈ addr, decide (c ≠ '/') = true := by
    intro c hc
    simp only [decide_eq_true_eq]
    exact fun heq => hslash (heq ▸ hc)
  have hdrop : (addr ++ '/' :: Nat.toDigits 10 ones).dropWhile (· ≠ '/') = '/' :: Nat.toDigits 10 ones := by
    rw [dropWhile_append_of_pos hpass]
    simp
  have htake : (addr ++ '/' :: Nat.toDigits 10 ones).takeWhile (· ≠ '/') = addr := by
    rw [takeWhile_append_of_pos hpass]
    simp
  rw [parseCIDR, hdrop, htake]
  simp [haddr, parseMask_toDigits, h]

theorem parseCIDR_text (n : IPNet) : ∃ m, parseCIDR n.text = some m ∧ ∀ ip, m.contains ip = n.contains ip := by
  have hsame : ∀ m : IPNet, m.ip = n.ip → m.host = n.host → ∀ ip, m.contains ip = n.contains ip := by
    intro m hip hhost ip
    rw [IPNet.contains, IPNet.contains, hip, hhost]
  cases h4 : is4 n.ip with
  | true =>
    have hhost := n.host_le_of_is4 h4
    have haddr : parseAddr (ipText n.ip) = some (addr4 n.ip.toNat) := by simp [parseAddr_ipText, h4]
    have hle : 32 - n.host ≤ (addr4 n.ip.toNat).bits := Nat.sub_le _ _
    have hbits : (addr4 n.ip.toNat).bits - (32 - n.host) = n.host := by simp only [addr4]; omega
    refine ⟨(addr4 n.ip.toNat).net (32 - n.host) hle, ?_, hsame _ ?_ hbits⟩
    · rw [IPNet.text, if_pos h4, parseCIDR_slash (slash_not_mem_ipText n.ip) haddr hle]
    · simp only [Addr.net, hbits]
      simpa [addr4, ofV4_low n.ip h4, IPNet.host] using n.masked
  | false =>
    have hbits : n.bits = 128 := by
      rcases n.family with ⟨-, h⟩ | h
      · rw [h4] at h
        cases h
      · exact h
    have haddr : parseAddr (ipText n.ip) = some (addr6 n.ip) := by simp [parseAddr_ipText, h4]
    have hle : n.ones ≤ (addr6 n.ip).bits := Nat.le_trans n.ones_le (Nat.le_of_eq hbits)
    refine ⟨(addr6 n.ip).net n.ones hle, ?_, hsame _ ?_ ?_⟩
    · rw [IPNet.text, if_neg (by simp [h4]), parseCIDR_slash (slash_not_mem_ipText n.ip) haddr hle]
    · simpa [Addr.net, addr6, hbits] using n.masked
    · simp [IPNet.host, Addr.net, addr6, hbits]

end Spoond.Lib.Ip
