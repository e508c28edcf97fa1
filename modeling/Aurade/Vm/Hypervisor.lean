import Aurade.Foundations.CommaOptions
import Aurade.Foundations.Percent
import Aurade.Foundations.Text

/-!
# What the hypervisors are told

The command lines of QEMU and of `virt-install`, and the text of a `.vmx` file, with the paths of a
VM in them. A drive is a value of options, cut at commas; a `.vmx` file is lines, each a value in
quotes.

The first are written as they are, so a path arrives exactly where there is no comma in it; the last
is written with escapes, so any string does that has no newline (`arrive_iff`).
-/

namespace Aurade.Vm.Hypervisor

/-! ## Paths -/

def slash : UInt8 := 47

/-- A step of `filepath.Clean`, over the names that are kept, the last in front. -/
def cleanStep (rooted : Bool) (out : List Bytes) (name : Bytes) : List Bytes :=
  if name = [] ∨ name = text "." then out
  else if name = text ".." then
    match out with
    | [] => if rooted then [] else [name]
    | top :: rest => if top = text ".." then name :: out else rest
  else name :: out

/-- `filepath.Clean`. -/
def clean (path : Bytes) : Bytes :=
  let rooted := path.head? = some slash
  let joined := [slash].intercalate ((path.splitOn slash).foldl (cleanStep rooted) []).reverse
  if rooted then slash :: joined else if joined = [] then text "." else joined

/-- `filepath.Join`, of a folder and a name. -/
def join (dir name : Bytes) : Bytes :=
  if dir ≠ [] then clean (dir ++ slash :: name) else if name ≠ [] then clean name else []

/-! ## The command lines -/

structure Spec where
  name : Bytes
  dir : Bytes
  iso : Bytes
  answersISO : Bytes
  memoryMB : ℤ
  cpus : ℤ
  diskGB : ℤ
  accel3D : Bool

/-- `strconv.Itoa`. -/
def itoa (n : ℤ) : Bytes := if n < 0 then 45 :: decimal n.natAbs else decimal n.natAbs

def answersFile : Bytes := text "aurade-answers.iso"

/-- What `Args` reads of the computer. -/
structure Computer where
  darwin : Bool
  /-- `AURADE_VM_DISPLAY`. -/
  display : Bytes
  /-- Whether there is an answers disk in the VM's folder. -/
  answersThere : Bool

/-- The firmware of each distribution. -/
def firmwareCodes : List Bytes :=
  [text "/usr/share/edk2/x64/OVMF_CODE.4m.fd", text "/usr/share/OVMF/OVMF_CODE_4M.fd",
    text "/usr/share/OVMF/OVMF_CODE.fd", text "/usr/share/edk2/ovmf/OVMF_CODE.fd",
    text "/usr/share/qemu/ovmf-x86_64-code.bin", text "/usr/share/edk2-ovmf/x64/OVMF_CODE.fd",
    text "/opt/homebrew/share/qemu/edk2-x86_64-code.fd",
    text "/usr/local/share/qemu/edk2-x86_64-code.fd"]

section Qemu

variable (e : Computer) (s : Spec)

def disk : Bytes := join s.dir (s.name ++ text ".qcow2")
def vars : Bytes := join s.dir (s.name ++ text "-efivars.fd")
def pidfile : Bytes := join s.dir (text "qemu.pid")

/-- `agentSocket`. -/
def agentSocket : Bytes := join s.dir (text "qga.sock")

/-- The drive of a disk that is read. -/
def cdrom (path id : Bytes) : Bytes :=
  text "file=" ++ path ++ (text ",media=cdrom,if=none,id=" ++ id ++ text ",readonly=on")

def accel : Bytes := if e.darwin then text "hvf" else text "kvm"

def gpu : Bytes :=
  if !e.darwin && s.accel3D then text "virtio-vga-gl,edid=on,xres=1920,yres=1080"
  else text "VGA,edid=on,xres=1920,yres=1080"

def display : Bytes :=
  if e.display ≠ [] then e.display
  else if e.darwin then text "cocoa"
  else text "gtk,zoom-to-fit=on" ++ if s.accel3D then text ",gl=on" else []

/-- What is put behind for the installer, the answers and the guest agent. -/
def isoArgs : List Bytes :=
  if s.iso ≠ [] then
    [text "-drive", cdrom s.iso (text "cd0"),
      text "-device", text "ide-cd,drive=cd0,bus=ide.0,bootindex=2"]
  else []

def answersArgs : List Bytes :=
  if e.answersThere then
    [text "-drive", cdrom (join s.dir answersFile) (text "cd1"),
      text "-device", text "ide-cd,drive=cd1,bus=ide.1"]
  else []

def agentArgs : List Bytes :=
  if (agentSocket s).length < 100 then
    [text "-device", text "virtio-serial-pci",
      text "-chardev", text "socket,id=qga0,path=" ++ agentSocket s ++ text ",server=on,wait=off",
      text "-device", text "virtserialport,chardev=qga0,name=org.qemu.guest_agent.0"]
  else []

/-- What comes before them, and between. -/
def machineArgs (code : Bytes) : List Bytes :=
  [text "-name", s.name, text "-machine", text "q35,accel=" ++ accel e, text "-cpu", text "host",
    text "-smp", itoa s.cpus, text "-m", itoa s.memoryMB,
    text "-drive", text "if=pflash,format=raw,readonly=on,file=" ++ code,
    text "-drive", text "if=pflash,format=raw,file=" ++ vars s,
    text "-drive", text "file=" ++ disk s ++ text ",if=none,id=hd0,format=qcow2,discard=unmap",
    text "-device", text "virtio-blk-pci,drive=hd0,bootindex=1"]

def deviceArgs : List Bytes :=
  [text "-device", gpu e s, text "-device", text "qemu-xhci", text "-device", text "usb-tablet",
    text "-nic", text "user,model=virtio-net-pci", text "-audiodev", text "none,id=snd0",
    text "-display", display e s, text "-pidfile", pidfile s]

/-- `QEMU.Args`. -/
def qemuArgs (code : Bytes) : List Bytes :=
  machineArgs e s code ++ (isoArgs s ++ (answersArgs e s ++ (deviceArgs e s ++ agentArgs s)))

end Qemu

/-- A disk that is read, for `virt-install`. -/
def cdromDisk (path : Bytes) : Bytes := text "path=" ++ path ++ text ",device=cdrom,bus=sata,readonly=on"

/-- The front of the command line of `virt-install`, with the disks. -/
def diskArgs (uri : Bytes) (s : Spec) : List Bytes :=
  [text "--connect", uri, text "--name", s.name, text "--memory", itoa s.memoryMB,
    text "--vcpus", itoa s.cpus, text "--cpu", text "host-passthrough",
    text "--osinfo", text "archlinux", text "--boot",
    text "uefi,firmware.feature0.name=secure-boot,firmware.feature0.enabled=no,firmware.feature1.name=enrolled-keys,firmware.feature1.enabled=no",
    text "--disk",
    text "path=" ++ disk s ++ (text ",size=" ++ itoa s.diskGB ++ text ",format=qcow2,bus=virtio,boot.order=1"),
    text "--disk", cdromDisk s.iso ++ text ",boot.order=2"]

/-- The disk of the answers. -/
def answersDiskArgs (s : Spec) : List Bytes :=
  if s.answersISO ≠ [] then [text "--disk", cdromDisk s.answersISO] else []

/-- The rest of the command line. -/
def screenArgs (s : Spec) : List Bytes :=
  [text "--network", text "user,model=virtio",
    text "--video", if s.accel3D then text "virtio,accel3d=yes" else text "vga",
    text "--graphics", if s.accel3D then text "spice,gl.enable=yes,listen=none" else text "spice",
    text "--input", text "tablet,bus=usb", text "--sound", text "none",
    text "--channel", text "unix,target.type=virtio,name=org.qemu.guest_agent.0",
    text "--import", text "--noautoconsole", text "--noreboot"]

/-- `InstallArgs`. -/
def installArgs (uri : Bytes) (s : Spec) : List Bytes :=
  diskArgs uri s ++ (answersDiskArgs s ++ screenArgs s)

/-! ## The text of a `.vmx` file -/

/-- The settings of `VMX` that are the same for every VM. -/
def fixedSettings : List (Bytes × Bytes) :=
  [(text ".encoding", text "UTF-8"), (text "config.version", text "8"),
    (text "virtualHW.version", text "19"), (text "guestOS", text "other6xlinux-64"),
    (text "firmware", text "efi"), (text "uefi.secureBoot.enabled", text "FALSE"),
    (text "pciBridge0.present", text "TRUE"), (text "pciBridge4.present", text "TRUE"),
    (text "pciBridge4.virtualDev", text "pcieRootPort"), (text "pciBridge4.functions", text "8"),
    (text "pciBridge5.present", text "TRUE"),
    (text "pciBridge5.virtualDev", text "pcieRootPort"), (text "pciBridge5.functions", text "8"),
    (text "pciBridge6.present", text "TRUE"),
    (text "pciBridge6.virtualDev", text "pcieRootPort"), (text "pciBridge6.functions", text "8"),
    (text "pciBridge7.present", text "TRUE"),
    (text "pciBridge7.virtualDev", text "pcieRootPort"), (text "pciBridge7.functions", text "8"),
    (text "vmci0.present", text "TRUE"), (text "hpet0.present", text "TRUE"),
    (text "nvme0.present", text "TRUE"), (text "nvme0:0.present", text "TRUE"),
    (text "sata0.present", text "TRUE"), (text "sata0:0.present", text "TRUE"),
    (text "sata0:0.deviceType", text "cdrom-image"),
    (text "sata0:0.startConnected", text "TRUE"), (text "ethernet0.present", text "TRUE"),
    (text "ethernet0.connectionType", text "nat"), (text "ethernet0.virtualDev", text "e1000e"),
    (text "ethernet0.addressType", text "generated"), (text "usb.present", text "TRUE"),
    (text "ehci.present", text "TRUE"), (text "usb_xhci.present", text "TRUE"),
    (text "usb_xhci:4.present", text "TRUE"), (text "usb_xhci:4.deviceType", text "hid"),
    (text "usb_xhci:4.port", text "4"), (text "usb_xhci:4.parent", text "-1"),
    (text "sound.present", text "TRUE"), (text "sound.autoDetect", text "TRUE"),
    (text "sound.fileName", text "-1"), (text "sound.virtualDev", text "hdaudio"),
    (text "floppy0.present", text "FALSE"), (text "powerType.powerOff", text "soft"),
    (text "powerType.powerOn", text "soft"), (text "powerType.suspend", text "soft"),
    (text "powerType.reset", text "soft"), (text "tools.syncTime", text "TRUE"),
    (text "gui.stretchGuestMode", text "fullfill"),
    (text "virtualHW.productCompatibility", text "hosted"),
    (text "annotation", text "AuraDE, made by aurade-vm")]

section Vmx

variable (s : Spec)

def graphicsKB : ℤ := if 8192 ≤ s.memoryMB then 4194304 else 2097152

/-- Those of this VM. -/
def ownSettings : List (Bytes × Bytes) :=
  [(text "displayName", s.name), (text "numvcpus", itoa s.cpus),
    (text "cpuid.coresPerSocket", itoa s.cpus), (text "memsize", itoa s.memoryMB),
    (text "nvme0:0.fileName", s.name ++ text ".vmdk"), (text "sata0:0.fileName", s.iso),
    (text "mks.enable3d", if s.accel3D then text "TRUE" else text "FALSE"),
    (text "svga.graphicsMemoryKB", itoa (graphicsKB s))]

/-- Those of an answers disk. -/
def answersSettings : List (Bytes × Bytes) :=
  if s.answersISO ≠ [] then
    [(text "sata0:1.present", text "TRUE"), (text "sata0:1.deviceType", text "cdrom-image"),
      (text "sata0:1.fileName", s.answersISO), (text "sata0:1.startConnected", text "TRUE")]
  else []

def settings : List (Bytes × Bytes) := fixedSettings ++ (ownSettings s ++ answersSettings s)

/-- The order of the lines: the encoding first, and the rest by their keys. -/
def keyLe (a b : Bytes × Bytes) : Bool :=
  if a.1 = text ".encoding" ∨ b.1 = text ".encoding" then a.1 = text ".encoding" else a.1 ≤ b.1

def sortedSettings : List (Bytes × Bytes) := (settings s).mergeSort keyLe

end Vmx

def bar : UInt8 := 124
def quote : UInt8 := 34

/-- `vmxEscape`, of a byte. -/
def vmxEscapeByte (b : UInt8) : Bytes :=
  if b = bar then text "|7C" else if b = quote then text "|22" else if b = 35 then text "|23" else [b]

/-- `vmxEscape`. -/
def vmxEscape (s : Bytes) : Bytes := s.flatMap vmxEscapeByte

/-- `VMX`. -/
def vmx (s : Spec) : Bytes :=
  (sortedSettings s).flatMap fun e => e.1 ++ (text " = \"" ++ (vmxEscape e.2 ++ [quote, newline]))

/-- A rune below 256 as a string. -/
def runeBytes (n : UInt8) : Bytes :=
  if n < 128 then [n] else [(0xC0 : UInt8) ||| (n >>> 6), (0x80 : UInt8) ||| (n &&& 0x3F)]

/-- `vmxUnescape`. -/
def vmxUnescape : Bytes → Bytes
  | p :: a :: b :: rest =>
    if p = bar then
      match hexByte a b with
      | some n => runeBytes n ++ vmxUnescape rest
      | none => p :: vmxUnescape (a :: b :: rest)
    else p :: vmxUnescape (a :: b :: rest)
  | bs => bs

/-- A string without a quote that it begins with. -/
def trimPrefixQuote (v : Bytes) : Bytes := if v.head? = some quote then v.tail else v

/-- A string without a quote that it ends with. -/
def trimSuffixQuote (v : Bytes) : Bytes := if v.getLast? = some quote then v.dropLast else v

/-- `vmxValue`. -/
def vmxValue (line : Bytes) : Bytes :=
  match splitOnce 61 line with
  | none => []
  | some (_, v) => vmxUnescape (trimSuffixQuote (trimPrefixQuote (trimBytes v)))

/-! ## What arrives in a `.vmx` file -/

theorem vmxUnescape_cons {p : UInt8} (hp : p ≠ bar) (rest : Bytes) :
    vmxUnescape (p :: rest) = p :: vmxUnescape rest := by
  match rest with
  | [] => rfl
  | [a] => rfl
  | a :: b :: rest => rw [vmxUnescape, if_neg hp]

theorem vmxUnescape_escapeByte (b : UInt8) (rest : Bytes) :
    vmxUnescape (vmxEscapeByte b ++ rest) = b :: vmxUnescape rest := by
  unfold vmxEscapeByte
  split_ifs with hbar hquote hhash
  · rw [hbar]
    rfl
  · rw [hquote]
    rfl
  · rw [hhash]
    rfl
  · exact vmxUnescape_cons hbar rest

/-- A string is read from its escapes as it was. -/
theorem vmxUnescape_escape (s : Bytes) : vmxUnescape (vmxEscape s) = s := by
  induction s with
  | nil => rfl
  | cons b s ih =>
    have hcons : vmxEscape (b :: s) = vmxEscapeByte b ++ vmxEscape s := rfl
    rw [hcons, vmxUnescape_escapeByte, ih]

theorem newline_notMem_vmxEscape {s : Bytes} (h : newline ∉ s) : newline ∉ vmxEscape s := by
  unfold vmxEscape
  rw [List.mem_flatMap]
  rintro ⟨b, hb, hmem⟩
  unfold vmxEscapeByte at hmem
  split_ifs at hmem
  · exact absurd hmem (by decide)
  · exact absurd hmem (by decide)
  · exact absurd hmem (by decide)
  · rw [List.mem_singleton] at hmem
    exact h (hmem ▸ hb)

/-- The line of a setting. -/
def vmxLine (e : Bytes × Bytes) : Bytes := e.1 ++ (text " = \"" ++ (vmxEscape e.2 ++ [quote]))

theorem solid_quote : Solid quote := by decide

/-- **A value is read from its line as it was**, where there is no equals sign in its key. -/
theorem vmxValue_line {e : Bytes × Bytes} (h : 61 ∉ e.1) : vmxValue (vmxLine e) = e.2 := by
  have hkey : (61 : UInt8) ∉ e.1 ++ [32] := by simpa using h
  have hline : vmxLine e = (e.1 ++ [32]) ++ 61 :: ([32] ++ quote :: (vmxEscape e.2 ++ [quote])) := by
    have htext : text " = \"" = [32, 61, 32, quote] := by decide
    simp [vmxLine, htext]
  have htrim : trimBytes ([32] ++ quote :: (vmxEscape e.2 ++ [quote])) =
      quote :: (vmxEscape e.2 ++ [quote]) := by
    have hstart : trimStart [32] = [] := by decide
    have hend : trimEnd [] = [] := by decide
    rw [trimBytes, trimStart_append_cons solid_quote, hstart, List.nil_append, ← List.cons_append,
      trimEnd_append_cons solid_quote, hend]
  rw [vmxValue, hline, splitOnce_append hkey]
  show vmxUnescape (trimSuffixQuote (trimPrefixQuote (trimBytes _))) = e.2
  rw [htrim]
  have hpre : trimPrefixQuote (quote :: (vmxEscape e.2 ++ [quote])) = vmxEscape e.2 ++ [quote] := rfl
  have hsuffix : trimSuffixQuote (vmxEscape e.2 ++ [quote]) = vmxEscape e.2 := by
    rw [trimSuffixQuote, List.getLast?_concat, if_pos rfl, List.dropLast_concat]
  rw [hpre, hsuffix, vmxUnescape_escape]

/-- Each setting has a line of its own, with its key in front and its value in it. -/
def VmxArrives (s : Spec) : Prop :=
  ∃ order : List (Bytes × Bytes), order.Perm (settings s) ∧
    List.Forall₂ (fun line e => e.1 ++ text " = " <+: line ∧ vmxValue line = e.2)
      ((vmx s).splitOn newline).dropLast order

/-- The strings of a VM that are written into its file have no newline. -/
def OneLine (s : Spec) : Prop := newline ∉ s.name ∧ newline ∉ s.iso ∧ newline ∉ s.answersISO

theorem newline_notMem_itoa (n : ℤ) : newline ∉ itoa n := by
  have hdigits : newline ∉ decimal n.natAbs := fun hmem => by
    have hdigit := List.all_eq_true.1 (all_isDigit_decimal n.natAbs) newline hmem
    exact absurd hdigit (by decide)
  unfold itoa
  split
  · rw [List.mem_cons, not_or]
    exact ⟨by decide, hdigits⟩
  · exact hdigits

/-- The keys and the values of a file are of one line, and the keys have no equals sign. -/
theorem settings_plain {s : Spec} (h : OneLine s) :
    ∀ e ∈ settings s, (61 : UInt8) ∉ e.1 ∧ newline ∉ e.1 ∧ newline ∉ e.2 := by
  obtain ⟨hname, hiso, hanswers⟩ := h
  have hvmdk : newline ∉ s.name ++ text ".vmdk" := by
    rw [List.mem_append, not_or]
    exact ⟨hname, by decide⟩
  have hbool : newline ∉ if s.accel3D then text "TRUE" else text "FALSE" := by
    cases s.accel3D <;> decide
  have hfixed : ∀ e ∈ fixedSettings, (61 : UInt8) ∉ e.1 ∧ newline ∉ e.1 ∧ newline ∉ e.2 := by
    decide
  intro e he
  rw [settings, List.mem_append, List.mem_append] at he
  rcases he with he | he | he
  · exact hfixed e he
  · simp only [ownSettings, List.mem_cons, List.not_mem_nil, or_false] at he
    rcases he with rfl | rfl | rfl | rfl | rfl | rfl | rfl | rfl
    all_goals
      dsimp only
      refine ⟨by decide, by decide, ?_⟩
      first
      | assumption
      | exact newline_notMem_itoa _
  · unfold answersSettings at he
    split at he
    · simp only [List.mem_cons, List.not_mem_nil, or_false] at he
      rcases he with rfl | rfl | rfl | rfl
      · decide
      · decide
      · dsimp only
        exact ⟨by decide, by decide, hanswers⟩
      · decide
    · cases he

/-- **Every string of a VM without a newline is read from its file as it was.** -/
theorem vmxArrives {s : Spec} (h : OneLine s) : VmxArrives s := by
  refine ⟨sortedSettings s, List.mergeSort_perm _ _, ?_⟩
  have hplain : ∀ e ∈ sortedSettings s, (61 : UInt8) ∉ e.1 ∧ newline ∉ e.1 ∧ newline ∉ e.2 :=
    fun e he => settings_plain h e (List.mem_mergeSort.1 he)
  have hlines : ∀ l ∈ (sortedSettings s).map vmxLine, newline ∉ l := by
    intro l hl
    obtain ⟨e, he, rfl⟩ := List.mem_map.1 hl
    obtain ⟨-, hkey, hvalue⟩ := hplain e he
    have htext : newline ∉ text " = \"" := by decide
    have hquote : newline ∉ [quote] := by decide
    simp [vmxLine, hkey, htext, hquote, newline_notMem_vmxEscape hvalue]
  have hvmx : vmx s = ((sortedSettings s).map vmxLine).flatMap fun l => l ++ [newline] := by
    rw [List.flatMap_map]
    refine List.flatMap_congr fun e _ => ?_
    simp [vmxLine]
  rw [hvmx, splitOn_flatMap_lines hlines, List.dropLast_concat, List.forall₂_map_left_iff,
    List.forall₂_same]
  intro e he
  refine ⟨⟨quote :: (vmxEscape e.2 ++ [quote]), ?_⟩, vmxValue_line (hplain e he).1⟩
  have htext : text " = \"" = text " = " ++ [quote] := by decide
  simp [vmxLine, htext]

/-! ## What arrives in a command line -/

def comma : UInt8 := 44

/-- The values behind a flag of a command line, each of whose flags has one. -/
def optionValues (flag : Bytes) : List Bytes → List Bytes
  | f :: v :: rest => if f = flag then v :: optionValues flag rest else optionValues flag rest
  | _ => []

section Meant

variable (e : Computer) (s : Spec)

/-- The drives that QEMU is meant to have, each by its options. -/
def qemuDrives (code : Bytes) : List (List Bytes) :=
  [[text "if=pflash", text "format=raw", text "readonly=on", text "file=" ++ code],
    [text "if=pflash", text "format=raw", text "file=" ++ vars s],
    [text "file=" ++ disk s, text "if=none", text "id=hd0", text "format=qcow2",
      text "discard=unmap"]] ++
  ((if s.iso ≠ [] then
      [[text "file=" ++ s.iso, text "media=cdrom", text "if=none", text "id=cd0",
        text "readonly=on"]] else []) ++
  if e.answersThere then
    [[text "file=" ++ join s.dir answersFile, text "media=cdrom", text "if=none", text "id=cd1",
      text "readonly=on"]] else [])

/-- Its character device. -/
def qemuChardevs : List (List Bytes) :=
  if (agentSocket s).length < 100 then
    [[text "socket", text "id=qga0", text "path=" ++ agentSocket s, text "server=on",
      text "wait=off"]]
  else []

/-- The disks that `virt-install` is meant to make. -/
def installDisks : List (List Bytes) :=
  [[text "path=" ++ disk s, text "size=" ++ itoa s.diskGB, text "format=qcow2", text "bus=virtio",
      text "boot.order=1"],
    [text "path=" ++ s.iso, text "device=cdrom", text "bus=sata", text "readonly=on",
      text "boot.order=2"]] ++
  if s.answersISO ≠ [] then
    [[text "path=" ++ s.answersISO, text "device=cdrom", text "bus=sata", text "readonly=on"]]
  else []

end Meant

theorem optionValues_append (flag : Bytes) {a : List Bytes} (h : a.length % 2 = 0) (b : List Bytes) :
    optionValues flag (a ++ b) = optionValues flag a ++ optionValues flag b := by
  fun_induction optionValues flag a with
  | case1 v rest ih =>
    have hrest : rest.length % 2 = 0 := by simpa [Nat.add_assoc] using h
    rw [List.cons_append, List.cons_append, optionValues, if_pos rfl, ih hrest]
    rfl
  | case2 f v rest hf ih =>
    have hrest : rest.length % 2 = 0 := by simpa [Nat.add_assoc] using h
    rw [List.cons_append, List.cons_append, optionValues, if_neg hf, ih hrest]
  | case3 a hne =>
    match a, hne with
    | [], _ => rfl
    | [_], _ => simp at h
    | _ :: _ :: _, hne => exact absurd rfl (hne _ _ _)

/-- Options behind a path. -/
theorem joinOptions_path (field path : Bytes) (o : Bytes) (os : List Bytes) :
    joinOptions comma ((field ++ path) :: o :: os) =
      field ++ path ++ comma :: joinOptions comma (o :: os) :=
  joinOptions_cons_cons comma (field ++ path) o os

theorem length_isoArgs (s : Spec) : (isoArgs s).length % 2 = 0 := by
  unfold isoArgs
  split <;> simp

theorem length_answersArgs (e : Computer) (s : Spec) : (answersArgs e s).length % 2 = 0 := by
  unfold answersArgs
  split <;> simp

/-- The values of a flag in the command line of QEMU, piece by piece. -/
theorem optionValues_qemuArgs (flag : Bytes) (e : Computer) (s : Spec) (code : Bytes) :
    optionValues flag (qemuArgs e s code) =
      optionValues flag (machineArgs e s code) ++ (optionValues flag (isoArgs s) ++
        (optionValues flag (answersArgs e s) ++ (optionValues flag (deviceArgs e s) ++
          optionValues flag (agentArgs s)))) := by
  have hmachine : (machineArgs e s code).length % 2 = 0 := by simp [machineArgs]
  have hdevice : (deviceArgs e s).length % 2 = 0 := by simp [deviceArgs]
  rw [qemuArgs, optionValues_append flag hmachine, optionValues_append flag (length_isoArgs s),
    optionValues_append flag (length_answersArgs e s), optionValues_append flag hdevice]

theorem cdrom_eq (path : Bytes) (id : Bytes) :
    cdrom path id = joinOptions comma [text "file=" ++ path, text "media=cdrom", text "if=none",
      text "id=" ++ id, text "readonly=on"] := by
  rw [joinOptions_path]
  rfl

theorem qemu_drives (e : Computer) (s : Spec) (code : Bytes) :
    optionValues (text "-drive") (qemuArgs e s code) =
      (qemuDrives e s code).map (joinOptions comma) := by
  have hmachine : optionValues (text "-drive") (machineArgs e s code) =
      [text "if=pflash,format=raw,readonly=on,file=" ++ code,
        text "if=pflash,format=raw,file=" ++ vars s,
        text "file=" ++ disk s ++ text ",if=none,id=hd0,format=qcow2,discard=unmap"] := rfl
  have hiso : optionValues (text "-drive") (isoArgs s) =
      if s.iso ≠ [] then [cdrom s.iso (text "cd0")] else [] := by
    unfold isoArgs
    split <;> rfl
  have hanswers : optionValues (text "-drive") (answersArgs e s) =
      if e.answersThere then [cdrom (join s.dir answersFile) (text "cd1")] else [] := by
    unfold answersArgs
    split <;> rfl
  have hdevice : optionValues (text "-drive") (deviceArgs e s) = [] := rfl
  have hagent : optionValues (text "-drive") (agentArgs s) = [] := by
    unfold agentArgs
    split <;> rfl
  have hdisk : text "file=" ++ disk s ++ text ",if=none,id=hd0,format=qcow2,discard=unmap" =
      joinOptions comma [text "file=" ++ disk s, text "if=none", text "id=hd0",
        text "format=qcow2", text "discard=unmap"] := by
    rw [joinOptions_path]
    rfl
  have hcode : text "if=pflash,format=raw,readonly=on,file=" ++ code =
      joinOptions comma [text "if=pflash", text "format=raw", text "readonly=on",
        text "file=" ++ code] := by
    rw [joinOptions_cons_cons, joinOptions_cons_cons, joinOptions_cons_cons, joinOptions_singleton]
    rfl
  have hvars : text "if=pflash,format=raw,file=" ++ vars s =
      joinOptions comma [text "if=pflash", text "format=raw", text "file=" ++ vars s] := by
    rw [joinOptions_cons_cons, joinOptions_cons_cons, joinOptions_singleton]
    rfl
  rw [optionValues_qemuArgs, hmachine, hiso, hanswers, hdevice, hagent, hcode, hvars, hdisk,
    qemuDrives, List.map_append, List.map_append, cdrom_eq, cdrom_eq]
  refine congrArg₂ (· ++ ·) rfl ?_
  rw [List.append_nil, List.append_nil]
  refine congrArg₂ (· ++ ·) ?_ ?_
  · split <;> rfl
  · split <;> rfl

theorem qemu_chardevs (e : Computer) (s : Spec) (code : Bytes) :
    optionValues (text "-chardev") (qemuArgs e s code) =
      (qemuChardevs s).map (joinOptions comma) := by
  have hmachine : optionValues (text "-chardev") (machineArgs e s code) = [] := rfl
  have hiso : optionValues (text "-chardev") (isoArgs s) = [] := by
    unfold isoArgs
    split <;> rfl
  have hanswers : optionValues (text "-chardev") (answersArgs e s) = [] := by
    unfold answersArgs
    split <;> rfl
  have hdevice : optionValues (text "-chardev") (deviceArgs e s) = [] := rfl
  rw [optionValues_qemuArgs, hmachine, hiso, hanswers, hdevice]
  unfold agentArgs qemuChardevs
  split
  · show [text "socket,id=qga0,path=" ++ agentSocket s ++ text ",server=on,wait=off"] =
      [joinOptions comma _]
    rw [joinOptions_cons_cons, joinOptions_cons_cons,
      joinOptions_path]
    rfl
  · rfl

theorem cdromDisk_eq (path : Bytes) :
    cdromDisk path = joinOptions comma [text "path=" ++ path, text "device=cdrom", text "bus=sata",
      text "readonly=on"] := by
  rw [joinOptions_path]
  rfl

theorem install_disks (uri : Bytes) (s : Spec) :
    optionValues (text "--disk") (installArgs uri s) =
      (installDisks s).map (joinOptions comma) := by
  have hdisks : (diskArgs uri s).length % 2 = 0 := by simp [diskArgs]
  have hanswers : (answersDiskArgs s).length % 2 = 0 := by
    unfold answersDiskArgs
    split <;> simp
  have hfront : optionValues (text "--disk") (diskArgs uri s) =
      [text "path=" ++ disk s ++
        (text ",size=" ++ itoa s.diskGB ++ text ",format=qcow2,bus=virtio,boot.order=1"),
        cdromDisk s.iso ++ text ",boot.order=2"] := rfl
  have hrest : optionValues (text "--disk") (screenArgs s) = [] := rfl
  have hsize : joinOptions comma [text "size=" ++ itoa s.diskGB, text "format=qcow2",
      text "bus=virtio", text "boot.order=1"] =
      text "size=" ++ itoa s.diskGB ++ text ",format=qcow2,bus=virtio,boot.order=1" := by
    rw [joinOptions_path]
    rfl
  have hdisk : text "path=" ++ disk s ++
      (text ",size=" ++ itoa s.diskGB ++ text ",format=qcow2,bus=virtio,boot.order=1") =
      joinOptions comma [text "path=" ++ disk s, text "size=" ++ itoa s.diskGB, text "format=qcow2",
        text "bus=virtio", text "boot.order=1"] := by
    rw [joinOptions_path, hsize]
    rfl
  have hiso : cdromDisk s.iso ++ text ",boot.order=2" =
      joinOptions comma [text "path=" ++ s.iso, text "device=cdrom", text "bus=sata",
        text "readonly=on", text "boot.order=2"] := by
    rw [cdromDisk, List.append_assoc, joinOptions_path]
    rfl
  rw [installArgs, optionValues_append _ hdisks, optionValues_append _ hanswers, hfront, hrest,
    hdisk, hiso, installDisks, List.map_append, List.append_nil]
  refine congrArg₂ (· ++ ·) rfl ?_
  unfold answersDiskArgs
  split
  · show [cdromDisk s.answersISO] = [joinOptions comma _]
    rw [cdromDisk_eq]
  · rfl

/-! ## When a path arrives -/

/-- The files that are named in a value of options. -/
def paths (e : Computer) (s : Spec) : List Bytes :=
  [vars s, disk s, s.iso, s.answersISO] ++
  ((if e.answersThere then [join s.dir answersFile] else []) ++
  if (agentSocket s).length < 100 then [agentSocket s] else [])

/-- Every option arrives as it was meant, and no other. -/
structure Arrives (e : Computer) (s : Spec) (code uri : Bytes) : Prop where
  drives : (optionValues (text "-drive") (qemuArgs e s code)).map (splitOptions comma) =
    qemuDrives e s code
  chardevs : (optionValues (text "-chardev") (qemuArgs e s code)).map (splitOptions comma) =
    qemuChardevs s
  disks : (optionValues (text "--disk") (installArgs uri s)).map (splitOptions comma) =
    installDisks s
  vmx : VmxArrives s

/-- Options without a separator in them, path and all. -/
def Plain (values : List (List Bytes)) : Prop := ∀ v ∈ values, ∀ o ∈ v, comma ∉ o

theorem comma_notMem_append {field : Bytes} (h : comma ∉ field) (path : Bytes) :
    comma ∉ field ++ path ↔ comma ∉ path := by
  simp [h]

theorem comma_notMem_itoa (n : ℤ) : comma ∉ itoa n := by
  have hdigits : comma ∉ decimal n.natAbs := fun hmem => by
    have hdigit := List.all_eq_true.1 (all_isDigit_decimal n.natAbs) comma hmem
    exact absurd hdigit (by decide)
  unfold itoa
  split
  · rw [List.mem_cons, not_or]
    exact ⟨by decide, hdigits⟩
  · exact hdigits

theorem plain_cons (v : List Bytes) (values : List (List Bytes)) :
    Plain (v :: values) ↔ (∀ o ∈ v, comma ∉ o) ∧ Plain values :=
  List.forall_mem_cons

theorem plain_append (values values' : List (List Bytes)) :
    Plain (values ++ values') ↔ Plain values ∧ Plain values' :=
  List.forall_mem_append

theorem plain_ite {c : Prop} [Decidable c] (values : List (List Bytes)) :
    Plain (if c then values else []) ↔ (c → Plain values) := by
  split <;> simp [Plain, *]

theorem plain_nil : Plain [] := by
  simp [Plain]

theorem plain_qemuDrives {e : Computer} {s : Spec} {code : Bytes} (hcode : comma ∉ code) :
    Plain (qemuDrives e s code) ↔ (comma ∉ vars s ∧ comma ∉ disk s) ∧
      (s.iso ≠ [] → comma ∉ s.iso) ∧ (e.answersThere → comma ∉ join s.dir answersFile) := by
  have hfile : comma ∉ text "file=" := by decide
  have hfirst : Plain [[text "if=pflash", text "format=raw", text "readonly=on",
      text "file=" ++ code], [text "if=pflash", text "format=raw", text "file=" ++ vars s],
      [text "file=" ++ disk s, text "if=none", text "id=hd0", text "format=qcow2",
        text "discard=unmap"]] ↔ comma ∉ vars s ∧ comma ∉ disk s := by
    simp only [plain_cons, plain_nil, List.forall_mem_cons,
      comma_notMem_append hfile]
    have hconst : comma ∉ text "if=pflash" ∧ comma ∉ text "format=raw" ∧ comma ∉ text "readonly=on" ∧
        comma ∉ text "if=none" ∧ comma ∉ text "id=hd0" ∧ comma ∉ text "format=qcow2" ∧
        comma ∉ text "discard=unmap" := by decide
    tauto
  have hcdrom : ∀ path id, comma ∉ id → (Plain [[text "file=" ++ path, text "media=cdrom",
      text "if=none", id, text "readonly=on"]] ↔ comma ∉ path) := by
    intro path id hid
    simp only [plain_cons, plain_nil, List.forall_mem_cons,
      comma_notMem_append hfile]
    have hconst : comma ∉ text "media=cdrom" ∧ comma ∉ text "if=none" ∧ comma ∉ text "readonly=on" := by
      decide
    tauto
  rw [qemuDrives, plain_append, plain_append, plain_ite, plain_ite, hfirst,
    hcdrom s.iso _ (by decide), hcdrom _ _ (by decide)]

theorem plain_qemuChardevs (s : Spec) :
    Plain (qemuChardevs s) ↔ ((agentSocket s).length < 100 → comma ∉ agentSocket s) := by
  have hpath : comma ∉ text "path=" := by decide
  rw [qemuChardevs, plain_ite]
  simp only [plain_cons, plain_nil, List.forall_mem_cons,
    comma_notMem_append hpath]
  have hconst : comma ∉ text "socket" ∧ comma ∉ text "id=qga0" ∧ comma ∉ text "server=on" ∧
      comma ∉ text "wait=off" := by decide
  tauto

theorem plain_installDisks (s : Spec) :
    Plain (installDisks s) ↔ (comma ∉ disk s ∧ comma ∉ s.iso) ∧
      (s.answersISO ≠ [] → comma ∉ s.answersISO) := by
  have hpath : comma ∉ text "path=" := by decide
  have hsize : comma ∉ text "size=" := by decide
  rw [installDisks, plain_append, plain_ite]
  simp only [plain_cons, plain_nil, List.forall_mem_cons,
    comma_notMem_append hpath, comma_notMem_append hsize]
  have hconst : comma ∉ text "format=qcow2" ∧ comma ∉ text "bus=virtio" ∧
      comma ∉ text "boot.order=1" ∧ comma ∉ text "device=cdrom" ∧ comma ∉ text "bus=sata" ∧
      comma ∉ text "readonly=on" ∧ comma ∉ text "boot.order=2" := by decide
  have hitoa := comma_notMem_itoa s.diskGB
  tauto

/-- The firmware is in none of the folders with a comma. -/
theorem comma_notMem_firmware {code : Bytes} (h : code ∈ firmwareCodes) : comma ∉ code := by
  have hall : ∀ c ∈ firmwareCodes, comma ∉ c := by decide
  exact hall code h

theorem no_comma_iff (e : Computer) (s : Spec) :
    (∀ p ∈ paths e s, comma ∉ p) ↔
      ((comma ∉ vars s ∧ comma ∉ disk s) ∧ (s.iso ≠ [] → comma ∉ s.iso) ∧
        (e.answersThere → comma ∉ join s.dir answersFile)) ∧
      ((agentSocket s).length < 100 → comma ∉ agentSocket s) ∧
      (comma ∉ disk s ∧ comma ∉ s.iso) ∧ (s.answersISO ≠ [] → comma ∉ s.answersISO) := by
  have hempty : s.answersISO = [] → comma ∉ s.answersISO := fun h => by simp [h]
  have hite : ∀ (c : Prop) [Decidable c] (p : Bytes),
      (∀ q ∈ (if c then [p] else []), comma ∉ q) ↔ (c → comma ∉ p) := by
    intro c _ p
    split <;> simp [*]
  simp only [paths, List.forall_mem_append, List.forall_mem_cons, hite]
  tauto

/-- Values of options, none of which is empty. -/
def Written (values : List (List Bytes)) : Prop := ∀ v ∈ values, v ≠ [] ∧ ∀ o ∈ v, o ≠ []

/-- Values of written options are cut again as they were exactly where they are plain. -/
theorem splitOptions_iff {values : List (List Bytes)} (h : Written values) :
    (values.map (joinOptions comma)).map (splitOptions comma) = values ↔ Plain values :=
  map_splitOptions_iff comma (fun v hv => (h v hv).1) fun v hv => (h v hv).2

theorem append_ne_nil_of_field {field : Bytes} (h : field ≠ []) (path : Bytes) : field ++ path ≠ [] :=
  List.append_ne_nil_of_left_ne_nil h path

theorem written_append (values values' : List (List Bytes)) :
    Written (values ++ values') ↔ Written values ∧ Written values' :=
  List.forall_mem_append

theorem written_ite (c : Prop) [Decidable c] {values : List (List Bytes)} (h : Written values) :
    Written (if c then values else []) := by
  split
  · exact h
  · intro v hv
    cases hv

theorem written_qemuDrives (e : Computer) (s : Spec) (code : Bytes) : Written (qemuDrives e s code) := by
  have hfile : text "file=" ≠ [] := by decide
  have hconst : text "if=pflash" ≠ [] ∧ text "format=raw" ≠ [] ∧ text "readonly=on" ≠ [] ∧
      text "if=none" ≠ [] ∧ text "id=hd0" ≠ [] ∧ text "format=qcow2" ≠ [] ∧
      text "discard=unmap" ≠ [] ∧ text "media=cdrom" ≠ [] ∧ text "id=cd0" ≠ [] ∧
      text "id=cd1" ≠ [] := by decide
  refine (written_append _ _).2 ⟨?_, (written_append _ _).2 ⟨written_ite _ ?_, written_ite _ ?_⟩⟩
  all_goals
    simp only [Written, List.forall_mem_cons, ne_eq, List.cons_ne_nil, append_ne_nil_of_field hfile,
      not_false_eq_true]
    tauto

theorem written_qemuChardevs (s : Spec) : Written (qemuChardevs s) := by
  have hpath : text "path=" ≠ [] := by decide
  have hconst : text "socket" ≠ [] ∧ text "id=qga0" ≠ [] ∧ text "server=on" ≠ [] ∧
      text "wait=off" ≠ [] := by decide
  refine written_ite _ ?_
  simp only [Written, List.forall_mem_cons, ne_eq, List.cons_ne_nil, append_ne_nil_of_field hpath,
    not_false_eq_true]
  tauto

theorem written_installDisks (s : Spec) : Written (installDisks s) := by
  have hpath : text "path=" ≠ [] := by decide
  have hsize : text "size=" ≠ [] := by decide
  have hconst : text "format=qcow2" ≠ [] ∧ text "bus=virtio" ≠ [] ∧ text "boot.order=1" ≠ [] ∧
      text "device=cdrom" ≠ [] ∧ text "bus=sata" ≠ [] ∧ text "readonly=on" ≠ [] ∧
      text "boot.order=2" ≠ [] := by decide
  refine (written_append _ _).2 ⟨?_, written_ite _ ?_⟩
  all_goals
    simp only [Written, List.forall_mem_cons, ne_eq, List.cons_ne_nil, append_ne_nil_of_field hpath,
      append_ne_nil_of_field hsize, not_false_eq_true]
    tauto

/-- **Every path arrives as it is exactly where none of them has a comma.** -/
theorem arrive_iff {e : Computer} {s : Spec} {code : Bytes} (hline : OneLine s)
    (hcode : code ∈ firmwareCodes) (uri : Bytes) :
    Arrives e s code uri ↔ ∀ p ∈ paths e s, comma ∉ p := by
  have hdrives := splitOptions_iff (written_qemuDrives e s code)
  have hchardevs := splitOptions_iff (written_qemuChardevs s)
  have hdisks := splitOptions_iff (written_installDisks s)
  rw [plain_qemuDrives (comma_notMem_firmware hcode), ← qemu_drives] at hdrives
  rw [plain_qemuChardevs, ← qemu_chardevs e s code] at hchardevs
  rw [plain_installDisks, ← install_disks uri s] at hdisks
  rw [no_comma_iff]
  constructor
  · rintro ⟨hd, hc, hi, -⟩
    exact ⟨hdrives.1 hd, hchardevs.1 hc, hdisks.1 hi⟩
  · rintro ⟨hd, hc, hi⟩
    exact ⟨hdrives.2 hd, hchardevs.2 hc, hdisks.2 hi, vmxArrives hline⟩

/-! ## A folder with a comma in its name -/

def linux : Computer := ⟨false, [], true⟩

/-- A VM in this folder. -/
def inFolder (dir : String) : Spec :=
  ⟨text "aurade", text dir, text "/iso/aurade.iso", [], 6144, 4, 40, false⟩

theorem oneLine_inFolder (dir : String) : OneLine (inFolder dir) := by
  simp only [OneLine, inFolder]
  decide

theorem arrive_iff_home :
    Arrives linux (inFolder "/home/a b/AuraDE") (text "/usr/share/OVMF/OVMF_CODE.fd")
      (text "qemu:///session") :=
  (arrive_iff (oneLine_inFolder _) (by decide) _).2 (by decide)

/-- A part of the folder's name becomes an option of the drive. -/
theorem drive_cut :
    ¬Arrives linux (inFolder "/home/a,readonly=on") (text "/usr/share/OVMF/OVMF_CODE.fd")
      (text "qemu:///session") := by
  intro h
  have hd := h.drives
  revert hd
  decide

end Aurade.Vm.Hypervisor
