import RouterFirmware.DhcpConfig

/-! # The broadcast address for the DHCP clients

`ifconfig` sets the broadcast address of the router's own interface from its address and mask;
`create_dhcp_config` tells the clients one for the same subnet.
-/
namespace DhcpBroadcast

open TextStream ConfigDatabase CString ConfigGenerate Ipv4Text DhcpConfig

/-- What `ifconfig` asks the kernel for. -/
inductive Request where
  | flags (flags : ℤ)
  | addr (a : Address)
  | netmask (mask : Address)
  | brdaddr (broad : Address)
  deriving DecidableEq

def perform (accepts : Request → Bool) : List Request → List Request
  | [] => []
  | r :: rs => if accepts r then r :: perform accepts rs else []

/-- `ifconfig(name, flags, addr, netmask)`: the requests that take effect. The last two
arguments are what `in_addr` and `in_netmask` hold before. -/
def ifconfig (accepts : Request → Bool) (flags : ℤ) (addr netmask : Option Text)
    (inAddr inNetmask : Address) : List Request :=
  perform accepts <| .flags flags :: match addr with
    | none => []
    | some addr =>
      let inAddr := inetAtonTo addr inAddr
      .addr inAddr :: match netmask with
        | none => []
        | some netmask =>
          let inNetmask := inetAtonTo netmask inNetmask
          [.netmask inNetmask, .brdaddr ((inAddr &&& inNetmask) ||| ~~~inNetmask)]

/-- The netmask of a prefix of `p` bits. -/
def contiguous (p : ℕ) : Address := BitVec.allOnes 32 <<< (32 - p)

def broadcastKey : Text := "option  broadcast ".toList

def broadcastLine (broad : Address) : Text := broadcastKey ++ inetNtoa broad ++ ['\n']

def broadcastOf (wfd : List Text) : Option Text := wfd.find? broadcastKey.isPrefixOf

section Bits

variable {a mask : Address} {p : ℕ}

theorem mem_perform {accepts : Request → Bool} {r : Request} {rs : List Request}
    (h : r ∈ perform accepts rs) : r ∈ rs := by
  induction rs with
  | nil => cases h
  | cons s rs ih =>
    rw [perform] at h
    split at h
    · exact List.mem_cons.mpr ((List.mem_cons.mp h).imp_right ih)
    · cases h

theorem inetNtoa_inj {b c : Address} : inetNtoa b = inetNtoa c ↔ b = c := by
  constructor
  · intro h
    have hsome : some b = some c := by rw [← inetAton_inetNtoa b, ← inetAton_inetNtoa c, h]
    exact Option.some.inj hsome
  · intro h
    rw [h]

theorem inetAtonTo_inetNtoa (b c : Address) : inetAtonTo (inetNtoa b) c = b := by
  rw [inetAtonTo, inetAton_inetNtoa, Option.getD_some]

theorem getLsbD_contiguous {i : ℕ} (hi : i < 32) :
    (contiguous p).getLsbD i = decide (32 - p ≤ i) := by
  simp only [contiguous, BitVec.getLsbD_shiftLeft, hi, decide_true, Bool.true_and,
    BitVec.getLsbD_allOnes]
  by_cases h : 32 - p ≤ i
  · have hlt : i - (32 - p) < 32 := by omega
    simp [h, hlt]
  · simp [h]

theorem brcast_eq_iff_bits : brcast a (contiguous p) = (a &&& contiguous p) ||| ~~~contiguous p ↔
    ∀ i < 32, (i < 8 ↔ i < 32 - p) ∨ (32 - p ≤ i ∧ a.getLsbD i = true) := by
  have h255 : ∀ i < 32, (255 : Address).getLsbD i = decide (i < 8) := by decide
  rw [brcast, BitVec.eq_of_getLsbD_eq_iff]
  refine forall_congr' fun i => forall_congr' fun hi => ?_
  simp only [BitVec.getLsbD_or, BitVec.getLsbD_and, BitVec.getLsbD_not, h255 i hi,
    getLsbD_contiguous hi, hi, decide_true, Bool.true_and]
  by_cases hmask : 32 - p ≤ i <;> by_cases hlow : i < 8 <;> cases a.getLsbD i <;>
    simp [hmask, hlow, ← not_le]

/-- The last octet of all ones is the right one exactly where the mask leaves ones. -/
theorem brcast_eq_iff : brcast a (contiguous p) = (a &&& contiguous p) ||| ~~~contiguous p ↔
    24 ≤ p ∧ ∀ i, 32 - p ≤ i → i < 8 → a.getLsbD i = true := by
  rw [brcast_eq_iff_bits]
  constructor
  · intro h
    refine ⟨?_, fun i hmask hlow => ?_⟩
    · by_contra hp
      rcases h (31 - p) (by omega) with hbits | hbits
      · omega
      · omega
    · rcases h i (by omega) with hbits | hbits
      · omega
      · exact hbits.2
  · intro h i hi
    obtain ⟨hp, hones⟩ := h
    by_cases hmask : 32 - p ≤ i
    · by_cases hlow : i < 8
      · exact .inr ⟨hmask, hones i hmask hlow⟩
      · exact .inl (by omega)
    · exact .inl (by omega)

end Bits

section Run

variable {P : Text → Prop} {database : Text} {a mask : Address} {g h : Generator} {r : Result}

theorem prints_countGateways (database : Text) (numWan : ℕ) :
    Prints P (countGateways database numWan) :=
  .forM (fun _ => .bind (.readFrom _ _ _) fun _ => .pure _) _

theorem prints_cutAtColon : Prints P cutAtColon := by
  intro g a h hrun
  cases hrun
  exact ⟨[], by simp⟩

theorem prints_printHead (dhcpdConf database : Text)
    (hP : ∀ t, t ∈ ["# ".toList, "#\n".toList, "interface         ".toList,
      "start             ".toList, "end               ".toList] → ∀ u, P (t ++ u)) :
    Prints P (printHead dhcpdConf database) := by
  have hline : ∀ {key : Text} (v : Text), (∀ u, P (key ++ u)) → P (key ++ v ++ ['\n']) := by
    intro key v hkey
    rw [List.append_assoc]
    exact hkey _
  refine .bind (.fprintf (hline _ (hP _ (by simp)))) fun _ => .bind (.fprintf ?_) fun _ =>
    .bind ?_ fun _ => ?_
  · simpa using hP "#\n".toList (by simp) []
  · exact .bind (.readItem _) fun _ => .ite (.bind .value fun _ =>
      .fprintf (hline _ (hP _ (by simp)))) (.pure _)
  · refine .bind (.readFrom _ _ _) fun _ => .ite (.bind .value fun _ => .ite ?_ (.pure _)) (.pure _)
    exact .bind prints_cutAtColon fun _ => .bind (.fprintf (hline _ (hP _ (by simp)))) fun _ =>
      .fprintf (hline _ (hP _ (by simp)))

theorem readSubnet_run (hset : settings database "SYSTEM".toList ["LAN".toList, "LANMASK".toList] =
    some [inetNtoa a, inetNtoa mask]) (gw old : Address) (g : Generator) :
    ∃ h, readSubnet database gw old g = .ok ((a, mask), h) ∧ h.wfd = g.wfd := by
  obtain ⟨g₁, hlan, hvalue, hwfd₁, hread⟩ := readFrom_settings hset g
  obtain ⟨g₂, hmask, hvalue', hwfd₂, -⟩ := readItem_readItems hread
  have hlen := length_inetNtoa a
  refine ⟨g₂, ?_, hwfd₂.trans hwfd₁⟩
  rw [readSubnet, run_bind_ok hlan, run_bind_ok (value_run g₁), hvalue, if_neg (by omega),
    run_bind_ok hmask, run_bind_ok (value_run g₂), hvalue', if_pos rfl, if_pos rfl,
    inetAtonTo_inetNtoa, inetAtonTo_inetNtoa]
  rfl

theorem prints_ispDns (database : Text) (numWan : ℕ) :
    Prints (fun _ => True) (ispDns database numWan) := by
  have hgateway : ∀ wanidx, Prints (fun _ => True) (gatewayDown database wanidx) := fun _ =>
    .bind (.findCategory _ _) fun _ => .ite (.bind (.findItem _) fun _ => .ite
      (.bind .getItemValue fun _ => .bind .value fun _ => .pure _) (.pure _)) (.pure _)
  have hopcode : ∀ wanidx, Prints (fun _ => True) (dnsOpcode database wanidx) := fun _ =>
    .bind (.readFrom _ _ _) fun _ => .bind .value fun _ => .pure _
  have hserver : ∀ dnsidx wanidx, Prints (fun _ => True) (readServer database dnsidx wanidx) :=
    fun _ _ => .bind (hgateway _) fun _ => .ite (.pure _) (.bind (hopcode _) fun _ =>
      .bind (.readFrom _ _ _) fun _ => .bind .value fun _ => .pure _)
  have hturn : ∀ l dnsidx wanidx, Prints (fun _ => True) (dnsTurn database l dnsidx wanidx) := by
    intro l dnsidx wanidx
    refine .bind (hserver dnsidx wanidx) fun server => ?_
    cases server with
    | none => exact .pure _
    | some server =>
      exact .ite (.pure _) (.bind (.lift _) fun _ => .bind (.fprintf trivial) fun _ => .pure _)
  have hwans : ∀ dnsidx wans l, Prints (fun _ => True) (dnsOverWans database dnsidx wans l) := by
    intro dnsidx wans
    induction wans with
    | nil => exact fun l => .pure l
    | cons wanidx wans ih =>
      exact fun l => .ite (.bind (hturn l dnsidx wanidx) fun l' => ih l') (.pure l)
  exact .foldlM (fun l dnsidx => hwans dnsidx _ l) _ _

theorem prints_printDns (database : Text) (numWan : ℕ) :
    Prints (fun _ => True) (printDns database numWan) := by
  have hlan : Prints (fun _ => True) (printLan database) :=
    .bind (.readFrom _ _ _) fun _ => .ite (.bind .value fun _ => .fprintf trivial) (.pure _)
  have hown : ∀ {read : Gen Bool} (ending : Text), Prints (fun _ => True) read →
      Prints (fun _ => True) (printOwnDns read ending) := fun ending hread =>
    .bind hread fun _ => .ite (.bind .value fun _ => .ite
      (.bind (.fprintf trivial) fun _ => .pure _) (.pure _)) (.pure _)
  refine .bind (.readFrom _ _ _) fun _ => .ite ?_ (.pure _)
  refine .bind (.fprintf trivial) fun _ => .bind .value fun _ => ?_
  have hend : Prints (fun _ => True) (fprintf ['\n']) := .fprintf trivial
  have hlanEnd : Prints (fun _ => True) (do printLan database; fprintf ['\n']) :=
    .bind hlan fun _ => hend
  exact .ite hlanEnd (.ite (.bind (prints_ispDns _ _) fun _ => .ite hlanEnd hend)
    (.ite (.bind (hown _ (.readFrom _ _ _)) fun _ => .bind (hown _ (.readItem _)) fun _ =>
      .ite hlanEnd hend) hend))

/-- What is printed before the broadcast line has other keys. -/
theorem broadcastOf_run (hset : settings database "SYSTEM".toList
    ["LAN".toList, "LANMASK".toList] = some [inetNtoa a, inetNtoa mask])
    {dhcpdConf glvalue : Text} {numWan : ℕ} {gw old : Address}
    (hrun : createDhcpConfig dhcpdConf database numWan gw old ⟨database, glvalue, []⟩ =
      .ok (.ok, h)) : broadcastOf h.wfd = some (broadcastLine (brcast a mask)) := by
  let Other : Text → Prop := fun t => broadcastKey.isPrefixOf t = false
  have hsnoc : ∀ {l : List Text} {t : Text}, (∀ u ∈ l, Other u) → Other t →
      ∀ u ∈ l ++ [t], Other u := by
    intro l t hl ht u hu
    rcases List.mem_append.mp hu with hu | hu
    · exact hl u hu
    · rw [List.mem_singleton.mp hu]
      exact ht
  rw [createDhcpConfig] at hrun
  obtain ⟨_, g₁, hcount, hrun⟩ := run_bind_eq_ok hrun
  have h₁ := (prints_countGateways (P := Other) database numWan).forall_wfd hcount (by simp)
  obtain ⟨g₂, hsubnet, hwfd⟩ := readSubnet_run hset gw old g₁
  rw [run_bind_ok hsubnet] at hrun
  rw [← hwfd] at h₁
  obtain ⟨_, g₃, hhead, hrun⟩ := run_bind_eq_ok hrun
  have hkeys : ∀ t, t ∈ ["# ".toList, "#\n".toList, "interface         ".toList,
      "start             ".toList, "end               ".toList] → ∀ u, Other (t ++ u) := by
    intro t ht u
    simp only [List.mem_cons, List.not_mem_nil, or_false] at ht
    rcases ht with rfl | rfl | rfl | rfl | rfl <;> rfl
  have h₃ := (prints_printHead (P := Other) dhcpdConf database hkeys).forall_wfd hhead h₁
  obtain ⟨timeout, g₄, htimeout, hrun⟩ := run_bind_eq_ok hrun
  have h₄ := (Prints.readResult (P := Other) _ _ _).forall_wfd htimeout h₃
  split at hrun
  · next hne =>
    cases hrun
    exact absurd rfl hne
  · rw [run_bind_ok (value_run g₄), run_bind_ok (fprintf_run _ g₄)] at hrun
    obtain ⟨mtu, g₅, hmtu, hrun⟩ := run_bind_eq_ok hrun
    have h₅ := (Prints.readResult (P := Other) _ _ _).forall_wfd hmtu (hsnoc h₄ rfl)
    split at hrun
    · next hne =>
      cases hrun
      exact absurd rfl hne
    · rw [run_bind_ok (value_run g₅), run_bind_ok (fprintf_run _ g₅),
        run_bind_ok (fprintf_run _ _), run_bind_ok (fprintf_run _ _)] at hrun
      have h₆ := hsnoc (t := "option subnet     ".toList ++ inetNtoa mask ++ ['\n'])
        (hsnoc (t := "opt     mtu     ".toList ++ cut g₅.glvalue ++ ['\n']) h₅ rfl) rfl
      obtain ⟨behind, hbehind, -⟩ := Prints.bind (.fprintf trivial) (fun _ => .bind
        (.bind (.readFrom _ _ _) fun _ => .ite (.bind .value fun _ =>
          .ite (.fprintf trivial) (.pure _)) (.pure _)) fun _ =>
        .bind (prints_printDns database numWan) fun _ => .bind
        (.bind (.readFrom _ _ _) fun _ => .ite (.bind .value fun _ =>
          .ite (.fprintf trivial) (.pure _)) (.pure _)) fun _ =>
        .bind (.fprintf trivial) fun _ => .pure _) _ _ _ hrun
      have hnone := List.find?_eq_none.mpr fun t ht =>
        (Bool.eq_false_iff.mp (h₆ t ht) : ¬ broadcastKey.isPrefixOf t = true)
      have hline : broadcastKey.isPrefixOf (broadcastLine (brcast a mask)) = true := by
        simp [broadcastLine]
      rw [broadcastOf, hbehind, List.find?_append, List.find?_append, hnone]
      exact congrArg (fun o => (none.or o).or _) (List.find?_cons_of_pos hline)

end Run

/-- The clients get the broadcast address of the interface exactly when the network part is at
least 24 bits long and has ones in all of its bits of the last octet. -/
theorem dhcp_broadcast_eq_ifconfig_iff {dhcpdConf database glvalue : Text} {numWan p : ℕ}
    {a broad gw mask inAddr inNetmask : Address} {h : Generator} {accepts : Request → Bool}
    {flags : ℤ}
    (hset : settings database "SYSTEM".toList ["LAN".toList, "LANMASK".toList] =
      some [inetNtoa a, inetNtoa (contiguous p)])
    (hdhcp : createDhcpConfig dhcpdConf database numWan gw mask ⟨database, glvalue, []⟩ =
      .ok (.ok, h))
    (hifconfig : .brdaddr broad ∈ ifconfig accepts flags (some (inetNtoa a))
      (some (inetNtoa (contiguous p))) inAddr inNetmask) :
    broadcastOf h.wfd = some (broadcastLine broad) ↔
      24 ≤ p ∧ ∀ i, 32 - p ≤ i → i < 8 → a.getLsbD i = true := by
  have hbroad : broad = (a &&& contiguous p) ||| ~~~contiguous p := by
    have hmem := mem_perform hifconfig
    simpa [inetAtonTo_inetNtoa] using hmem
  rw [broadcastOf_run hset hdhcp, hbroad, ← brcast_eq_iff, Option.some.injEq, broadcastLine,
    broadcastLine, List.append_left_inj, List.append_right_inj, inetNtoa_inj]

def subnetDatabase (lanmask : String) : Text :=
  ("[SYSTEM]\nLAN=192.168.1.1\nLANMASK=" ++ lanmask ++ "\n[DHCP]\nTIMEOUT=0\n[WAN1]\n" ++
    "MTU=1500\n").toList

/-- What `create_dhcp_config` leaves behind for a mask. -/
def configured (lanmask : String) : Generator :=
  match createDhcpConfig [] (subnetDatabase lanmask) 0 0 0 ⟨subnetDatabase lanmask, [], []⟩ with
  | .ok (_, h) => h
  | .error _ => ⟨[], [], []⟩

theorem dhcp_broadcast_of_class_c :
    broadcastOf (configured "255.255.255.0").wfd =
        some (broadcastLine (ofOctets 192 168 1 255)) ↔
      24 ≤ 24 ∧ ∀ i, 32 - 24 ≤ i → i < 8 → (ofOctets 192 168 1 1).getLsbD i = true :=
  @dhcp_broadcast_eq_ifconfig_iff [] (subnetDatabase "255.255.255.0") [] 0 24
    (ofOctets 192 168 1 1) (ofOctets 192 168 1 255) 0 0 0 0 (configured "255.255.255.0")
    (fun _ => true) 0 (by decide +kernel) (by decide +kernel) (by decide +kernel)

/-- With a mask of 16 bits the clients get another address than the interface. -/
theorem dhcp_broadcast_of_class_b :
    broadcastOf (configured "255.255.0.0").wfd = some (broadcastLine (ofOctets 192 168 0 255)) ∧
      .brdaddr (ofOctets 192 168 255 255) ∈ ifconfig (fun _ => true) 0
        (some "192.168.1.1".toList) (some "255.255.0.0".toList) 0 0 ∧
      broadcastLine (ofOctets 192 168 0 255) ≠ broadcastLine (ofOctets 192 168 255 255) := by
  decide +kernel

end DhcpBroadcast
