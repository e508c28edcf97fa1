import Aurade.Installer.Packages

/-!
# The engine

`aurade-install` from its `partition` stage on, and the script as a whole (`engine`). The stages are
definitions of their own, in the order the script has them. `run` is the wrapper that makes a dry run
print its commands; what the script does under `[[ $MODE == execute ]]` is `executing` here.
-/

namespace Aurade.Installer

variable (host : Host)

/-- `run`: print the command in a dry run, execute it otherwise. -/
def run (s : Settings) (c : Command) : Engine Unit := whenever (s.mode = .execute) (exec host c)

/-- `if [[ $MODE == execute ]]`. -/
def executing (s : Settings) (m : Engine Unit) : Engine Unit := whenever (s.mode = .execute) m

/-- `dirname`. -/
def dirname (path : Bytes) : Bytes := ((rsplitOnce 47 path).map Prod.fst).getD []

/-- `write_target_file`. -/
def writeTargetFile (s : Settings) (relative mode content : Bytes) : Engine Unit := executing s do
  let destination := chopSlash s.mountpoint ++ relative
  exec host (.installDir 0o755 [dirname destination])
  exec host (.write content destination)
  exec host (.chmod mode destination)

/-- `run arch-chroot "$MOUNTPOINT" …` -/
def chroot (s : Settings) (argv : List Bytes) : Engine Unit := run host s (.chroot s.mountpoint argv)

/-! ## Partitioning and formatting -/

/-- The partitions of a run: `ESP_PART` and `ROOT_PART`. -/
structure Parts where
  esp : Bytes
  root : Bytes

/-- The device `awk '$2 == "AURADE_ROOT" { print $1; exit }'` finds in the list of labels. -/
def rootOf (lines : List Bytes) : Bytes :=
  ((lines.map fields).find? fun f => decide (f.getD 1 [] = text "AURADE_ROOT")).elim [] (·.headD [])

/-- The partitions alongside what is there: no `wipefs` and no `--zap-all`, every partition that is
there stays as it is. -/
def addPartition (s : Settings) (c : Checked) : Engine Parts := do
  run host s (.largestNew s.rootPartitionType s.target)
  run host s (.partprobe s.target)
  run host s .settle
  match s.mode with
  | .execute => do
    let labels ← must host (.query (.lsblk .partLabels s.target))
    let root := rootOf labels.lines
    let there ← asks host (.test .blockDevice root)
    orDie host there (text "the new partition did not appear after partitioning the target")
    pure ⟨c.esp, root⟩
  | .dryRun => pure ⟨text "<existing-efi-system-partition>", text "<new-partition-in-free-space>"⟩

/-- The partitions of a disk that is wiped. -/
def wipeDisk (s : Settings) : Engine Parts := do
  run host s (.wipefs s.target)
  run host s (.zapAll s.target)
  run host s (.newTable s.rootPartitionType s.target)
  run host s (.partprobe s.target)
  run host s .settle
  pure ⟨partitionPath s.target 1, partitionPath s.target 2⟩

/-- The `partition` stage. -/
def partitionStage (s : Settings) (c : Checked) : Engine Parts := do
  journalBegin host .partition (text "Partitioning the disk")
  let parts ← (match s.layout with
    | .alongside => addPartition host s c
    | .wipe => wipeDisk host s)
  journalOk host .partition []
  pure parts

/-- `CRYPT_NAME`. -/
def cryptName : Bytes := text "aurade-root"

/-- `/dev/mapper/$CRYPT_NAME`. -/
def mapper : Bytes := text "/dev/mapper/" ++ cryptName

/-- `ROOT_DEVICE`. -/
def rootDevice (s : Settings) (parts : Parts) : Bytes := if s.luks then mapper else parts.root

/-- The `format` stage. -/
def formatStage (s : Settings) (parts : Parts) : Engine Unit := do
  journalBegin host .format (text "Creating the filesystems")
  -- alongside, the EFI system partition is mounted and written into, never made
  whenever (s.layout = .wipe) (run host s (.mkfsFat parts.esp))
  whenever s.luks do
    run host s (.luksFormat s.opts.luksPassphraseFile parts.root)
    run host s (.luksOpen s.opts.luksPassphraseFile parts.root cryptName)
    executing s (Act.assign fun v => { v with cryptOpened := true })
  run host s (.mkfs s.filesystem (rootDevice s parts))
  journalOk host .format []

/-! ## Mounting -/

/-- `MOUNTPOINT` and a path under it. -/
def inside (s : Settings) (path : String) : Bytes := s.mountpoint ++ text path

/-- `TARGET_MOUNTED`. -/
def setMounted (s : Settings) (b : Bool) : Engine Unit :=
  executing s (Act.assign fun v => { v with targetMounted := b })

/-- The options of a mount of the subvolume. -/
def subvolumeOptions (name : String) : Option Bytes :=
  some (text "noatime,compress=zstd:3,subvol=" ++ text name)

/-- The mounts of a root with subvolumes. -/
def mountSubvolumes (s : Settings) (root esp : Bytes) : Engine Unit := do
  run host s (.mount none root s.mountpoint)
  setMounted s true
  forEach ["@", "@home", "@var_log", "@snapshots"] fun name =>
    run host s (.subvolume (inside s "/" ++ text name))
  run host s (.umount false s.mountpoint)
  setMounted s false
  run host s (.mount (subvolumeOptions "@") root s.mountpoint)
  setMounted s true
  run host s (.installDir 0o755 [inside s "/boot", inside s "/home", inside s "/var/log",
    inside s "/.snapshots", inside s "/var/cache/aurade/repo"])
  run host s (.mount none esp (inside s "/boot"))
  run host s (.mount (subvolumeOptions "@home") root (inside s "/home"))
  run host s (.mount (subvolumeOptions "@var_log") root (inside s "/var/log"))
  run host s (.mount (subvolumeOptions "@snapshots") root (inside s "/.snapshots"))

/-- The mounts of a root that is one filesystem. -/
def mountPlain (s : Settings) (root esp : Bytes) : Engine Unit := do
  run host s (.mount (some (text "noatime")) root s.mountpoint)
  setMounted s true
  run host s (.installDir 0o755 [inside s "/boot", inside s "/var/cache/aurade/repo"])
  run host s (.mount none esp (inside s "/boot"))

/-- The `mount` stage. -/
def mountStage (s : Settings) (parts : Parts) : Engine Unit := do
  journalBegin host .mount (text "Mounting the new filesystems")
  run host s (.installDir 0o755 [s.mountpoint])
  (match s.filesystem with
    | .btrfs => mountSubvolumes host s (rootDevice s parts) parts.esp
    | _ => mountPlain host s (rootDevice s parts) parts.esp)
  journalOk host .mount []

/-! ## Between `mount` and `pacstrap` -/

/-- Where the packages are kept, and which arrived: `ARCH_CACHE`, `ARCH_PACKAGE_FILES`. -/
structure Cache where
  dir : Bytes
  files : List Bytes

/-- The `acquire-target` stage, where the packages are kept on the target. -/
def acquireTargetStage (s : Settings) (p : Packages) (w : Work) (selected : Staging) (c : Cache) :
    Engine Cache := do
  let onTarget := inside s "/var/cache/pacman/pkg"
  match s.mode with
  | .execute =>
    if selected = .target then
      run host s (.installDir 0o755 [onTarget])
      writeArchPacmanConf host s w onTarget
      journalBegin host .acquireTarget (text "Downloading packages to the new disk")
      let files ← downloadArchPackages host p w onTarget true
      journalOk host .acquireTarget []
      pure ⟨onTarget, files⟩
    else pure c
  | .dryRun =>
    if s.staging = .target then
      run host s (.installDir 0o755 [onTarget])
      writeArchPacmanConf host s w onTarget
      writeArchLocalPacmanConf host w onTarget
      pure ⟨onTarget, c.files⟩
    else pure c

/-- `swap_mib`. -/
def swapMib (s : Settings) : Engine ℕ := do
  let size := s.opts.swapSize
  if s.swap ≠ .file then pure 0
  else if size.getLast? = some 77 then pure (parseDecimal size.dropLast)
  else if size.getLast? = some 71 then pure (parseDecimal size.dropLast * 1024)
  else
    let memory ← look host (.query .memory)
    let kib := if allOf isDigit memory.line then parseDecimal memory.line else 4 * 1024 * 1024
    if size = text "hibernate" then pure (kib / 1024 + 2048)
    else pure (min (kib / 1024) 8192)

/-- A swap file as the filesystem needs it. -/
def makeSwapFile (s : Settings) (mib : ℕ) (file : Bytes) : Engine Unit :=
  match s.filesystem with
  | .btrfs => run host s (.mkswapfile mib file)
  | .ext4 => do
    run host s (.fallocate mib file)
    run host s (.chmod (text "600") file)
    run host s (.mkswap file)
  | .xfs => do
    run host s (.zeros mib file)
    run host s (.chmod (text "600") file)
    run host s (.mkswap file)

/-- The swap file, made before `pacstrap` and belonging to no stage. It hands back the size, or
`none` where there is no swap file. -/
def makeSwap (s : Settings) : Engine (Option ℕ) := do
  let mib ← swapMib host s
  if s.swap = .file ∧ 0 < mib then
    run host s (.installDir 0o755 [inside s "/swap"])
    makeSwapFile host s mib (inside s "/swap/swapfile")
    pure (some mib)
  else pure none

/-! ## Packages -/

/-- The percentage in one line of `pacstrap`: `( 12/531)`. -/
def packageCount (line : Bytes) : Option ℕ :=
  match line with
  | 40 :: rest =>
    let rest := rest.dropWhile (· == 32)
    let done := rest.takeWhile isDigit
    let total := ((rest.dropWhile isDigit).drop 1).takeWhile isDigit
    if done ≠ [] ∧ (rest.dropWhile isDigit).head? = some 47 ∧ total ≠ [] ∧
        (((rest.dropWhile isDigit).drop 1).dropWhile isDigit).head? = some 41 ∧ 0 < parseDecimal total then
      some (parseDecimal done * 100 / parseDecimal total)
    else none
  | _ => none

/-- `run_pacstrap`. -/
def runPacstrap (s : Settings) (p : Packages) (w : Work) : Engine Unit := executing s do
  let installed ← Act.each false (fun attempt => do
    exec host (.write [] (w.dir ++ text "/pacstrap-" ++ decimal attempt ++ text ".log"))
    let r ← look host (.command (.pacstrap w.localConf s.mountpoint p.base))
    forEach (r.lines.filterMap packageCount) fun pct => journalProgress host .pacstrap pct []
    if r.ok then pure true
    else do
      let keyring ← asks host .keyringFailure
      whenever keyring (dieKeyringFailure host)
      pure false) [1, 2, 3]
  whenever (!installed) (die host (text "pacstrap failed after three attempts"))

/-- The `pacstrap` stage. -/
def pacstrapStage (s : Settings) (p : Packages) (w : Work) : Engine Unit := do
  journalBegin host .pacstrap (text "Installing the base system")
  runPacstrap host s p w
  journalOk host .pacstrap []

/-- `aurade_mirror_servers`. -/
def mirrorServers (s : Settings) : Bytes :=
  let own := text "Server = " ++ chopSlash s.opts.repoUrl ++ text "\n"
  if s.opts.repoUrl = host.defaultRepoUrl ∧ s.opts.allowUnsigned = false ∧
      upper (s.opts.repoFingerprint.filter fun b => !(text " \t\n").contains b) =
        text "BC390DCF360B2184DBBF008B8B2AB2EFE667CB69" then
    text "Server = " ++ host.hostedRepoUrl ++ text "\n" ++ own
  else own

/-- The repository, its key and the AuraDE packages, between `pacstrap` and `configure` and
belonging to no stage. -/
def addRepository (s : Settings) (p : Packages) (w : Work) (selected : Staging) (c : Cache) :
    Engine Unit := do
  let conf := inside s "/etc/pacman.conf"
  executing s do
    whenever (selected = .target) do
      forEach c.files fun package => exec host (.remove [package, package ++ text ".sig"])
      exec host (.remove ([".db", ".db.tar.gz", ".files", ".files.tar.gz"].map fun e =>
        c.dir ++ text "/aurade-arch" ++ text e))
  run host s (.copy (chopSlash s.opts.bundleDir ++ text "/.") (inside s "/var/cache/aurade/repo/"))
  executing s (copyPublicKeyring host w.gpgDir (inside s "/etc/pacman.d/gnupg"))
  let ring := "/usr/share/pacman/keyrings/aurade-repository.gpg"
  let fingerprint := upper (s.opts.repoFingerprint.filter fun b => !(text " \t\n").contains b)
  whenever (!s.opts.allowUnsigned) do
    run host s (.install 0o644 s.opts.repoKey (inside s ring))
    chroot host s [text "pacman-key", text "--init"]
    chroot host s [text "pacman-key", text "--add", text ring]
    chroot host s [text "pacman-key", text "--lsign-key", fingerprint]
    run host s (.edit (text "s/^LocalFileSigLevel.*/LocalFileSigLevel = Required/") conf)
  let level := if s.opts.allowUnsigned then text "SigLevel = Never"
    else text "SigLevel = Required DatabaseOptional"
  writeTargetFile host s (text "/etc/pacman.d/aurade-mirrorlist") (text "0644") (mirrorServers host s)
  writeTargetFile host s (text "/etc/pacman.d/aurade.conf") (text "0644") (text "[" ++ s.opts.repoName ++
    text "]\n" ++ level ++ text "\nInclude = /etc/pacman.d/aurade-mirrorlist\n")
  run host s (.copyProfiles s.mountpoint)
  writeTargetFile host s (text "/etc/pacman.d/mirrorlist") (text "0644")
    (text "Server = https://geo.mirror.pkgbuild.com/$repo/os/$arch\nServer = https://mirror.rackspace.com/archlinux/$repo/os/$arch\nServer = https://mirrors.kernel.org/archlinux/$repo/os/$arch\n")
  run host s (.append (text "\nInclude = /etc/pacman.d/aurade.conf\n") conf)
  chroot host s ([text "pacman", text "-U", text "--needed", text "--noconfirm"] ++ p.files)

/-! ## The `configure` stage -/

/-- A word of the options, by its name in a `key=value` file. -/
def entry (name : String) (value : Bytes) : Bytes := text name ++ text "=" ++ value ++ text "\n"

/-- `LUKS` as the script prints it. -/
def flag (b : Bool) : Bytes := if b then text "1" else text "0"

/-- The first files of the installed system: mounts, clock, name, keyboard and language. It hands
back the keyboard's lines. -/
def configureBasics (s : Settings) (swapFile : Option ℕ) : Engine (List Bytes) := do
  let o := s.opts
  run host s (.genfstab s.mountpoint (inside s "/etc/fstab"))
  whenever swapFile.isSome
    (run host s (.append (text "/swap/swapfile none swap defaults 0 0\n") (inside s "/etc/fstab")))
  whenever (s.swap = .zram)
    (writeTargetFile host s (text "/etc/systemd/zram-generator.conf") (text "0644")
      (text "[zram0]\nzram-size = min(ram / 2, 8192)\ncompression-algorithm = zstd\n"))
  chroot host s [text "ln", text "-sf", text "/usr/share/zoneinfo/" ++ o.timezone, text "/etc/localtime"]
  chroot host s [text "hwclock", text "--systohc"]
  writeTargetFile host s (text "/etc/hostname") (text "0644") (o.hostname ++ text "\n")
  let xkb ← listing host (.keymapXkb o.keymap)
  writeTargetFile host s (text "/etc/vconsole.conf") (text "0644") (entry "KEYMAP" o.keymap ++ xkb.flatten)
  writeTargetFile host s (text "/etc/locale.conf") (text "0644") (entry "LANG" o.locale)
  pure xkb

/-- The accessibility choices and what this install was, written into the installed system. -/
def configureRecords (s : Settings) : Engine Unit := do
  let o := s.opts
  writeTargetFile host s (text "/etc/aurade-install/accessibility") (text "0644")
    (entry "screen_reader" o.screenReader ++ entry "braille" o.braille ++ entry "contrast" o.contrast ++
      entry "text_scale" o.textScale ++ entry "spacing" o.spacing ++ entry "typeface" o.typeface ++
      entry "reduce_motion" o.reduceMotion ++ entry "cursor_size" o.cursorSize)
  let now ← answer host .now
  let code ← look host (.query (.badge now))
  whenever (code.line ≠ [])
    (writeTargetFile host s (text "/etc/aurade-install/badge") (text "0644") code.lines.flatten)
  writeTargetFile host s (text "/etc/aurade-install/summary") (text "0644")
    (entry "installed" now ++ entry "target" s.target ++ entry "layout" o.layout ++
      entry "filesystem" o.filesystem ++ entry "encrypted" (flag s.luks) ++ entry "swap" o.swap ++
      entry "hostname" o.hostname ++ entry "username" o.username ++ entry "locale" o.locale ++
      entry "keymap" o.keymap ++ entry "timezone" o.timezone ++ entry "snapshot" o.archSnapshot ++
      entry "fingerprint" (if code.line = [] then text "none" else code.line) ++
      entry "feature_profile" o.featureProfile ++ entry "wallpaper" o.wallpaper ++
      entry "display_scale" o.displayScale ++ entry "apps" o.apps ++
      entry "auto_snapshots" o.autoSnapshots)

/-- Whether any accessibility choice is not the default. -/
def accessibilityChosen (o : Options) : Bool :=
  o.screenReader = text "yes" || o.braille = text "yes" || o.contrast = text "high" ||
    o.textScale ≠ text "100" || o.reduceMotion = text "yes" || o.cursorSize ≠ text "24" ||
    o.spacing ≠ text "normal" || o.typeface ≠ text "system"

/-- The accessibility choices where the desktop reads them. -/
def configureAccessibility (s : Settings) : Engine Unit := do
  let o := s.opts
  whenever (accessibilityChosen o) do
    let still := o.reduceMotion = text "yes"
    let face := if o.typeface = text "atkinson" then text "\ngtk-font-name=Atkinson Hyperlegible 11"
      else if o.typeface = text "opendyslexic" then text "\ngtk-font-name=OpenDyslexic Nerd Font 11"
      else []
    writeTargetFile host s (text "/etc/xdg/gtk-4.0/settings.ini") (text "0644")
      (text "[Settings]\n" ++ entry "gtk-xft-dpi" (decimal (parseDecimal o.textScale * 96 * 1024 / 100)) ++
        entry "gtk-enable-animations" (flag !still) ++ text "gtk-cursor-theme-size=" ++ o.cursorSize ++
        face ++ text "\n")
    writeTargetFile host s (text "/etc/dconf/profile/user") (text "0644")
      (text "user-db:user\nsystem-db:local\n")
    writeTargetFile host s (text "/etc/dconf/db/local.d/00-aurade-accessibility") (text "0644")
      (text "[org/gnome/desktop/a11y/interface]\n" ++
        entry "high-contrast" (if o.contrast = text "high" then text "true" else text "false") ++
        text "\n[org/gnome/desktop/interface]\n" ++
        entry "text-scaling-factor" (decimal (parseDecimal o.textScale / 100) ++ text "." ++
          padded 2 (parseDecimal o.textScale % 100)) ++
        entry "enable-animations" (if still then text "false" else text "true") ++
        entry "cursor-size" o.cursorSize)
    chroot host s [text "dconf", text "update"]
    whenever (o.spacing ≠ text "normal")
      (writeTargetFile host s (text "/etc/xdg/gtk-4.0/gtk.css") (text "0644")
        (text "label, entry, textview \x7b line-height: " ++
          (if o.spacing = text "roomier" then text "2.0; letter-spacing: 0.4px"
            else text "1.75; letter-spacing: 0.2px") ++ text "; \x7d\n"))
  let check := text "/usr/local/bin/aurade-first-boot-accessibility"
  let there ← asks host (.test .executable check)
  let check := if there then check else host.selfDir ++ text "/aurade-first-boot-accessibility"
  let unit := text "/usr/local/share/aurade/aurade-first-boot-accessibility.service"
  let there ← asks host (.test .readable unit)
  let unit := if there then unit
    else host.selfDir ++ text "/../units/aurade-first-boot-accessibility.service"
  let there ← asks host (.test .executable check)
  let readable ← andAsks host there (.test .readable unit)
  whenever readable do
    run host s (.install 0o755 check (inside s "/usr/local/bin/aurade-first-boot-accessibility"))
    run host s (.install 0o644 unit
      (inside s "/etc/systemd/system/aurade-first-boot-accessibility.service"))
    chroot host s [text "systemctl", text "enable", text "aurade-first-boot-accessibility.service"]
  whenever (o.screenReader = text "yes") (chroot host s [text "systemctl", text "enable", text "espeakup.service"])
  whenever (o.braille = text "yes") (chroot host s [text "systemctl", text "enable", text "brltty.service"])

/-- The language and the account. -/
def configureAccount (s : Settings) : Engine Unit := do
  let o := s.opts
  run host s (.edit (text "s/^#(" ++ o.locale ++ text "[[:space:]]+UTF-8)/\\1/") (inside s "/etc/locale.gen"))
  chroot host s [text "locale-gen"]
  chroot host s [text "useradd", text "-m", text "-G", text "wheel,audio,video,input,storage,seat",
    text "-s", text "/bin/bash", o.username]
  -- the hash goes through a pipe, never into an argument
  run host s (.chpasswd s.mountpoint o.username o.passwordHashFile)
  writeTargetFile host s (text "/etc/sudoers.d/10-aurade-wheel") (text "0440")
    (text "%wheel ALL=(ALL:ALL) ALL\n")

/-- A percentage as a factor, with the zeros at its end dropped as `${_scale%0}` and `${_scale%.0}`
drop them. -/
def scaleText (percent : ℕ) : Bytes :=
  let factor := decimal (percent / 100) ++ text "." ++ padded 2 (percent % 100)
  let factor := if factor.getLast? = some 48 then factor.dropLast else factor
  if (text ".0").isSuffixOf factor then factor.take (factor.length - 2) else factor

/-- The desktop as it was asked for. -/
def configureDesktop (s : Settings) (p : Packages) : Engine Unit := do
  let o := s.opts
  let features := inside s "/etc/aurade/features.conf"
  whenever (o.featureProfile ≠ text "auto") do
    executing s do
      let there ← asks host (.contains (text "^AURADE_FEATURE_PROFILE=") features)
      if there then
        exec host (.edit (text "s/^AURADE_FEATURE_PROFILE=.*/AURADE_FEATURE_PROFILE=" ++ o.featureProfile ++
          text "/") features)
      else do
        exec host (.installDir 0o755 [dirname features])
        exec host (.append (entry "AURADE_FEATURE_PROFILE" o.featureProfile) features)
  whenever (o.wallpaper ≠ text "auto") do
    executing s do
      let wallpaper := text "/usr/share/aurade/wallpapers/" ++ o.wallpaper ++ text ".png"
      let there ← asks host (.test .readable (s.mountpoint ++ wallpaper))
      whenever there do
        let able ← asks host (.contains (text "AURADE_DEFAULT_WALLPAPER") (inside s "/usr/bin/chromiumos-ash"))
        whenever able do
          let set ← asks host (.contains (text "^AURADE_DEFAULT_WALLPAPER=") features)
          if set then
            exec host (.edit (text "s|^AURADE_DEFAULT_WALLPAPER=.*|AURADE_DEFAULT_WALLPAPER=" ++ wallpaper ++
              text "|") features)
          else exec host (.append (entry "AURADE_DEFAULT_WALLPAPER" wallpaper) features)
  whenever (o.displayScale ≠ text "auto") do
    writeTargetFile host s (text "/home/" ++ o.username ++ text "/.config/aurade/display.conf") (text "0644")
      (text "# AuraDE display settings\nscale=" ++ scaleText (parseDecimal o.displayScale) ++ text "\n")
    chroot host s [text "chown", text "-R", o.username ++ text ":" ++ o.username,
      text "/home/" ++ o.username ++ text "/.config"]
  whenever ((appList o.apps).contains (text "flatpak"))
    -- the install goes on without Flathub
    (executing s (discard (look host (.command (.chroot s.mountpoint [text "flatpak", text "remote-add",
      text "--system", text "--if-not-exists", text "flathub"])))))
  whenever ((appList o.apps).contains (text "waydroid"))
    (chroot host s [text "systemctl", text "enable", text "waydroid-container.service"])
  whenever (p.services ≠ []) (chroot host s ([text "systemctl", text "enable"] ++ p.services))
  whenever (o.autoSnapshots = text "yes")
    (writeTargetFile host s (text "/etc/pacman.d/hooks/00-aurade-snapshot.hook") (text "0644")
      (text "[Trigger]\nOperation = Install\nOperation = Upgrade\nOperation = Remove\nType = Package\nTarget = *\n\n[Action]\nDescription = Taking a recovery snapshot before the package change...\nWhen = PreTransaction\nExec = /usr/local/sbin/aurade-recovery snapshot --label before-update --set-rollback\n"))
  chroot host s [text "passwd", text "--lock", text "root"]
  chroot host s ([text "systemctl", text "enable"] ++ ["NetworkManager.service", "shill-nm-adapter.service",
    "bluetooth.service", "systemd-timesyncd.service", "seatd.service", "aurade-powerd.service",
    "aurade-host-bridge.service", "aurade-greetd.service"].map text)
  chroot host s [text "systemctl", text "set-default", text "graphical.target"]
  whenever (p.locked.contains (text "aurade-greeter"))
    (run host s (.install 0o644 (inside s "/usr/share/aurade-greeter/aurade.toml.example")
      (inside s "/etc/greetd/aurade.toml")))

/-- `secure_boot_sign_in_place`. It is reached only where this run signs. -/
def secureBootSignInPlace (s : Settings) (w : Work) (input : Bytes) : Engine Unit := do
  let there ← asks host (.test .readable input)
  orDie host there (text "Secure Boot kernel artifact is missing: " ++ input)
  executing s do
    let temporary ← must host (.command (.mktemp (w.dir ++ text "/secure-boot-sign.XXXXXX")))
    let signed ← look host (.command (.sign w.key w.cert input temporary.line))
    whenever (!signed.ok) do
      exec host (.remove [temporary.line])
      die host (text "could not sign Secure Boot kernel: " ++ input)
    exec host (.install 0o644 temporary.line input)
    exec host (.remove [temporary.line])

/-- `BOOT_SCREEN`. -/
def bootScreen (s : Settings) (p : Packages) : Bool := s.luks && p.locked.contains (text "aurade-boot")

/-- Whether the unlock screen reads its keys through the console: `MKINITCPIO_ENV` is set. -/
def bootLegacyInput (s : Settings) (p : Packages) (xkb : List Bytes) : Bool :=
  bootScreen s p && xkb = [] && s.opts.keymap ≠ text "us"

/-- `luks_hooks`. -/
def luksHooks (screen : Bool) : Bytes :=
  text "base systemd autodetect microcode modconf kms keyboard sd-vconsole " ++
    (if screen then text "plymouth aurade-boot " else []) ++ text "block sd-encrypt filesystems fsck"

/-- The hooks of the initramfs. -/
def configureHooks (s : Settings) (p : Packages) (swapFile : Option ℕ) : Engine Unit := do
  if s.luks then
    run host s (.edit (text "s|^HOOKS=.*|HOOKS=(" ++ luksHooks (bootScreen s p) ++ text ")|")
      (inside s "/etc/mkinitcpio.conf"))
    whenever (bootScreen s p)
      (writeTargetFile host s (text "/etc/plymouth/plymouthd.conf") (text "0644")
        (text "[Daemon]\nTheme=aurade-boot\nDeviceScale=1\n"))
  else
    whenever (s.opts.swapSize = text "hibernate" ∧ swapFile.isSome)
      (run host s (.edit (text "s|^(HOOKS=\\(.*)\\bfilesystems\\b|\\1resume filesystems|")
        (inside s "/etc/mkinitcpio.conf")))

/-- The initramfs, and the signatures on the kernels. -/
def configureBoot (s : Settings) (p : Packages) (w : Work) (c : Checked) (xkb : List Bytes)
    (swapFile : Option ℕ) : Engine Unit := do
  configureHooks host s p swapFile
  chroot host s ((if bootLegacyInput s p xkb then [text "env", text "AURADE_BOOT_LEGACY_INPUT=1"] else []) ++
    [text "mkinitcpio", text "-P"])
  whenever c.sign do
    run host s (.install 0o600 w.key (inside s "/etc/kernel/secure-boot-private-key.pem"))
    run host s (.install 0o644 w.cert (inside s "/etc/kernel/secure-boot-certificate.pem"))
    run host s (.install 0o755 (host.selfDir ++ text "/aurade-secure-boot-sign")
      (inside s "/usr/local/libexec/aurade-secure-boot-sign"))
    let hook := host.selfDir ++ text "/../share/aurade/90-aurade-secure-boot.hook"
    let there ← asks host (.test .readable hook)
    let hook := if there then hook
      else host.selfDir ++ text "/../secure-boot/90-aurade-secure-boot.hook"
    run host s (.install 0o644 hook
      (inside s "/usr/share/libalpm/hooks/90-aurade-secure-boot.hook"))
    let kernels ← listing host (.glob (inside s "/boot/") (text "vmlinuz-"))
    let kernels := if kernels = [] then [inside s "/boot/vmlinuz-linux"] else kernels
    forEach kernels fun kernel => secureBootSignInPlace host s w kernel

/-- The `configure` stage. It hands back the keyboard's lines. -/
def configureStage (s : Settings) (p : Packages) (w : Work) (c : Checked) (swapFile : Option ℕ) :
    Engine (List Bytes) := do
  journalBegin host .configure (text "Setting up the installed system")
  let xkb ← configureBasics host s swapFile
  configureRecords host s
  configureAccessibility host s
  configureAccount host s
  configureDesktop host s p
  configureBoot host s p w c xkb swapFile
  journalOk host .configure []
  pure xkb

/-! ## The last stages -/

/-- `secure_boot_sign_loader`. -/
def secureBootSignLoader (s : Settings) (w : Work) (c : Checked) : Engine Unit :=
  whenever c.sign do
    executing s do
      let source := inside s "/usr/lib/systemd/boot/efi/systemd-bootx64.efi"
      let there ← asks host (.test .readable source)
      orDie host there (text "Secure Boot signing source is missing: systemd-bootx64.efi")
      let signed ← look host (.command (.sign w.key w.cert source (source ++ text ".signed")))
      orDie host signed.ok (text "could not sign the systemd-boot loader for Secure Boot")
      exec host (.chmod (text "0644") (source ++ text ".signed"))

/-- What the boot entries say of the root, and whether it can be resumed from hibernation. -/
structure BootRoot where
  uuid : Bytes
  options : Bytes
  hibernation : Bool

/-- The UUIDs the boot entries name, and the offset of the swap file. -/
def bootRoot (s : Settings) (parts : Parts) (swapFile : Option ℕ) : Engine BootRoot := do
  let wanted := s.opts.swapSize = text "hibernate" && swapFile.isSome
  match s.mode with
  | .dryRun =>
    let options := if s.luks then
        text "rd.luks.name=<luks-uuid>=aurade-root rd.luks.options=tries=0 root=/dev/mapper/aurade-root rw"
      else text "root=UUID=<root-filesystem-uuid> rw"
    pure ⟨text "<root-filesystem-uuid>", options ++
      (if wanted then text " resume=UUID=<root-filesystem-uuid> resume_offset=<swapfile-offset>" else []), wanted⟩
  | .execute => do
    let uuid ← answer host (.uuid (rootDevice s parts))
    let luksUuid ← (if s.luks then answer host (.luksUuid parts.root) else pure [])
    let options := if s.luks then
        text "rd.luks.name=" ++ luksUuid ++ text "=aurade-root rd.luks.options=tries=0 root=/dev/mapper/aurade-root rw"
      else text "root=UUID=" ++ uuid ++ text " rw"
    if wanted then
      let offset ← look host (.query (.swapOffset (inside s "/swap/swapfile")))
      if allOf isDigit (digits offset.line) then
        pure ⟨uuid, options ++ text " resume=UUID=" ++ uuid ++ text " resume_offset=" ++ digits offset.line, true⟩
      else pure ⟨uuid, options, false⟩
    else pure ⟨uuid, options, false⟩

/-- `MICROCODE_IMAGE`. -/
def microcodeImage (s : Settings) : Engine Bytes := do
  match s.mode with
  | .dryRun => pure (text "<detected-microcode.img>")
  | .execute => do
    let vendor ← answer host .cpuVendor
    pure (if vendor = text "GenuineIntel" then text "intel-ucode.img"
      else if vendor = text "AuthenticAMD" then text "amd-ucode.img" else [])

/-- `BOOT_ARTIFACTS`. -/
def bootArtifacts (microcode : Bytes) : List Bytes :=
  [text "vmlinuz-linux"] ++ (if microcode = [] then [] else [microcode]) ++ [text "initramfs-linux.img"]

/-- The `bootloader` stage. It hands back the artifacts and the root's entry. -/
def bootloaderStage (s : Settings) (p : Packages) (w : Work) (c : Checked) (parts : Parts)
    (xkb : List Bytes) (swapFile : Option ℕ) : Engine (List Bytes × BootRoot) := do
  journalBegin host .bootloader (text "Installing the bootloader")
  secureBootSignLoader host s w c
  run host s (.bootctl s.mountpoint c.setupMode)
  let root ← bootRoot host s parts swapFile
  writeTargetFile host s (text "/boot/loader/loader.conf") (text "0644")
    (text "default aurade.conf\ntimeout 4\nconsole-mode max\neditor no\n" ++
      if c.setupMode then text "secure-boot-enroll " ++ s.opts.secureBootEnroll ++ text "\n" else [])
  let microcode ← microcodeImage host s
  let initrd (dir : String) : Bytes :=
    if microcode = [] then [] else text "initrd /" ++ text dir ++ microcode ++ text "\n"
  let flags := if s.filesystem = .btrfs then text " rootflags=subvol=@" else []
  let screen := (if bootScreen s p then text " splash" else []) ++
    (if bootLegacyInput s p xkb then text " plymouth.use-legacy-input" else [])
  writeTargetFile host s (text "/boot/loader/entries/aurade.conf") (text "0644")
    (text "title AuraDE\nlinux /vmlinuz-linux\n" ++ initrd "" ++ text "initrd /initramfs-linux.img\noptions " ++
      root.options ++ flags ++ text " quiet" ++ screen ++ text "\n")
  let artifacts := bootArtifacts microcode
  whenever (s.filesystem = .btrfs) do
    run host s (.installDir 0o755 [inside s "/boot/aurade-rollback/factory"])
    forEach artifacts fun artifact =>
      run host s (.install 0o644 (inside s "/boot/" ++ artifact)
        (inside s "/boot/aurade-rollback/factory/" ++ artifact))
    writeTargetFile host s (text "/boot/loader/entries/aurade-rollback.conf") (text "0644")
      (text "title AuraDE factory rollback\nlinux /aurade-rollback/factory/vmlinuz-linux\n" ++
        initrd "aurade-rollback/factory/" ++ text "initrd /aurade-rollback/factory/initramfs-linux.img\noptions " ++
        root.options ++ text " rootflags=subvol=@snapshots/0/snapshot systemd.unit=multi-user.target\n")
  run host s (.installDir 0o755 [inside s "/etc/aurade-install"])
  run host s (.installDir 0o750 [inside s "/.snapshots/0"])
  run host s (.copy s.opts.packageLock (inside s "/etc/aurade-install/packages.lock"))
  run host s (.install 0o755 (host.selfDir ++ text "/aurade-recovery")
    (inside s "/usr/local/sbin/aurade-recovery"))
  run host s (.install 0o755 (host.selfDir ++ text "/aurade-hardware-qualify")
    (inside s "/usr/local/sbin/aurade-hardware-qualify"))
  journalOk host .bootloader []
  pure (artifacts, root)

/-- The `snapshot` stage. -/
def snapshotStage (s : Settings) (c : Checked) (root : BootRoot) (swapFile : Option ℕ) : Engine Unit := do
  journalBegin host .snapshot (text "Taking the first snapshot")
  let now ← answer host .now
  writeTargetFile host s (text "/etc/aurade-install/manifest") (text "0644")
    (entry "installer_version" (text "1") ++ entry "installed_utc" now ++ entry "arch_snapshot" s.opts.archSnapshot ++
      entry "repo_name" s.opts.repoName ++ entry "repo_url" s.opts.repoUrl ++
      entry "repo_fingerprint" (if s.opts.repoFingerprint = [] then text "unsigned" else s.opts.repoFingerprint) ++
      entry "encrypted" (flag s.luks) ++ entry "filesystem" s.opts.filesystem ++
      entry "layout" s.opts.layout ++
      entry "swap_policy" (match swapFile with
        | some mib => text "file:" ++ decimal mib ++ text "M"
        | none => s.opts.swap) ++
      entry "hibernation" (if root.hibernation then text "supported" else text "unsupported") ++
      entry "secure_boot" (flag c.sign) ++
      entry "secure_boot_enrollment" (if c.setupMode then text "pending" else text "pre-enrolled-or-disabled") ++
      entry "root_uuid" root.uuid ++
      entry "root_subvolume" (if s.filesystem = .btrfs then text "@" else text "none") ++
      entry "factory_snapshot"
        (if s.filesystem = .btrfs then text "@snapshots/0/snapshot" else text "none"))
  whenever (s.filesystem = .btrfs)
    (run host s (.snapshot s.mountpoint (inside s "/.snapshots/0/snapshot")))
  run host s .sync
  journalOk host .snapshot []

/-- A program in the target that only looks. -/
def inTarget (s : Settings) (argv : List String) : Engine Reply :=
  look host (.query (.inTarget s.mountpoint (argv.map text)))

/-- A file that has to be in the target. -/
def requireFile (s : Settings) (path message : Bytes) : Engine Unit := do
  let there ← asks host (.test .readable (s.mountpoint ++ path))
  orDie host there (text "post-install verification failed: " ++ message)

/-- The rollback entry and its artifacts, or that there is none. -/
def verifyRollback (s : Settings) (artifacts : List Bytes) : Engine Unit := do
  let rollback := text "/boot/loader/entries/aurade-rollback.conf"
  if s.filesystem = .btrfs then
    requireFile host s rollback (text "the rollback boot entry is missing")
    forEach artifacts fun artifact =>
      requireFile host s (text "/boot/aurade-rollback/factory/" ++ artifact)
        (text "rollback boot artifact is missing: " ++ artifact)
  else
    let there ← asks host (.test .present (s.mountpoint ++ rollback))
    orDie host (!there)
      (text "post-install verification failed: a rollback entry exists on a filesystem with no factory snapshot")

/-- The `verify-install` stage. -/
def verifyStage (s : Settings) (artifacts : List Bytes) (swapFile : Option ℕ) : Engine Unit := do
  journalBegin host .verifyInstall (text "Checking the installation")
  executing s do
    let failed := text "post-install verification failed: "
    let filled ← asks host (.test .nonempty (inside s "/etc/fstab"))
    orDie host filled (failed ++ text "fstab is empty")
    requireFile host s (text "/boot/loader/entries/aurade.conf") (text "the systemd-boot entry is missing")
    forEach artifacts fun artifact =>
      requireFile host s (text "/boot/" ++ artifact) (text "boot artifact is missing: " ++ artifact)
    verifyRollback host s artifacts
    whenever swapFile.isSome do
      requireFile host s (text "/swap/swapfile") (text "the swap file is missing")
      let listed ← asks host (.contains (text "/swap/swapfile") (inside s "/etc/fstab"))
      orDie host listed (failed ++ text "the swap file is not in fstab")
    let packages ← inTarget host s ["pacman", "-Q", "aurade", "chromiumos-ash"]
    orDie host packages.ok (failed ++ text "expected AuraDE packages are not installed")
    let services ← inTarget host s ["systemctl", "is-enabled", "NetworkManager.service",
      "shill-nm-adapter.service", "seatd.service", "aurade-greetd.service"]
    orDie host services.ok (failed ++ text "required services are not enabled")
    let state ← must host (.query (.inTarget s.mountpoint [text "passwd", text "-S", text "root"]))
    orDie host (((fields state.line).getD 1 []).head? = some 76)
      (failed ++ text "installed root account is not locked")
    let placeholder ← asks host (.contains (text "repo\\.aurade\\.invalid") (inside s "/etc"))
    orDie host (!placeholder) (failed ++ text "placeholder repository URL remains")
    requireFile host s (text "/boot/EFI/BOOT/BOOTX64.EFI") (text "UEFI fallback loader is missing")
  journalOk host .verifyInstall []

/-! ## The script -/

/-- The `acquire` stage, where the packages are kept in the work directory. -/
def acquireStage (s : Settings) (p : Packages) (w : Work) (selected : Staging) : Engine (List Bytes) := do
  if (if s.mode = .execute then selected else s.staging) = .workspace then
    journalBegin host .acquire (text "Downloading and checking packages")
    match s.mode with
    | .execute => do
      let files ← downloadArchPackages host p w w.cache false
      journalOk host .acquire []
      pure files
    | .dryRun => do
      writeArchLocalPacmanConf host w w.cache
      journalOk host .acquire []
      pure []
  else pure []

/-- From the `preflight` record to `confirm`: the disk is not touched yet. It hands back where the
packages are kept. -/
def before (s : Settings) (p : Packages) (c : Checked) : Engine (Work × Staging × Cache) := do
  let started ← journalInit host s.mode.word s.target
  orDie host started (text "the install journal could not be started, and nothing runs without one")
  journalBegin host .preflight (text "Checking the disk and this computer")
  journalOk host .preflight []
  let w ← prepareWork host s c
  executing s (prepareArchKeyring host w)
  journalBegin host .packageCheck (text "Checking the package list and where it will be stored")
  let selected ← acquireArchPackages host s p w
  journalOk host .packageCheck selected.word
  let files ← acquireStage host s p w selected
  journalBegin host .confirm (text "Erase confirmed")
  journalOk host .confirm []
  pure (w, selected, ⟨w.cache, files⟩)

/-- From `partition` on. -/
def install (s : Settings) (p : Packages) (c : Checked) (w : Work) (selected : Staging) (cache : Cache) :
    Engine Unit := do
  let parts ← partitionStage host s c
  formatStage host s parts
  mountStage host s parts
  let cache ← acquireTargetStage host s p w selected cache
  let swapFile ← makeSwap host s
  pacstrapStage host s p w
  addRepository host s p w selected cache
  let xkb ← configureStage host s p w c swapFile
  let boot ← bootloaderStage host s p w c parts xkb swapFile
  snapshotStage host s c boot.2 swapFile
  verifyStage host s boot.1 swapFile
  let r ← journalEmit host .done .ok (text "installation complete") .none
  settle r

/-- The stages of `install` behind `mount`. -/
def afterMount (s : Settings) (p : Packages) (c : Checked) (w : Work) (selected : Staging)
    (cache : Cache) (parts : Parts) : Engine Unit := do
  let cache ← acquireTargetStage host s p w selected cache
  let swapFile ← makeSwap host s
  pacstrapStage host s p w
  addRepository host s p w selected cache
  let xkb ← configureStage host s p w c swapFile
  let boot ← bootloaderStage host s p w c parts xkb swapFile
  snapshotStage host s c boot.2 swapFile
  verifyStage host s boot.1 swapFile
  let r ← journalEmit host .done .ok (text "installation complete") .none
  settle r

theorem install_eq (s : Settings) (p : Packages) (c : Checked) (w : Work) (selected : Staging)
    (cache : Cache) :
    install host s p c w selected cache = (do
      let parts ← partitionStage host s c
      formatStage host s parts
      mountStage host s parts
      afterMount host s p c w selected cache parts) := rfl

/-- The script, from its options on. -/
def script (o : Options) : Engine Unit := do
  let s ← validate host o
  let p ← choosePackages host s
  requireShapeTools host s
  let c ← (if s.mode = .execute then executeChecks host s else pure {})
  let b ← before host s p c
  install host s p c b.1 b.2.1 b.2.2

/-- The part of `script` that only checks. -/
def checkedOptions (o : Options) : Engine (Settings × Packages × Checked) := do
  let s ← validate host o
  let p ← choosePackages host s
  requireShapeTools host s
  let c ← (if s.mode = .execute then executeChecks host s else pure {})
  pure (s, p, c)

theorem script_eq (o : Options) :
    script host o = (do
      let r ← checkedOptions host o
      let b ← before host r.1 r.2.1 r.2.2
      install host r.1 r.2.1 r.2.2 b.1 b.2.1 b.2.2) := by
  simp only [script, checkedOptions, bind_assoc, pure_bind]

/-- `aurade-install`, from its arguments to its exit. -/
def engine (argv : List Bytes) : Engine Unit :=
  match parse host argv with
  | .options o => withTraps host o.mountpoint (script host o)
  | .usage => withTraps host (text "/mnt/aurade-target") (pure ())
  | .missing => withTraps host (text "/mnt/aurade-target") (Act.fail (.status 1))
  | .unknown word => withTraps host (text "/mnt/aurade-target") (die host (text "unknown option: " ++ word))

/-- The calls of a run with these arguments. -/
def history (argv : List Bytes) : History := (engine host argv { vars := {} }).2.history

/-! ## A machine for the examples -/

/-- A reply of one line. -/
def prints (line : String) : Reply := { lines := [text line] }

/-- The answers of a machine on which every program succeeds, with one disk and a calm clock. -/
def calmReply : Call → Reply
  | .query .user => prints "0"
  | .query (.test .symlink _) => { ok := false }
  | .query (.test .present path) => { ok := !holds "aurade-rollback.conf" path }
  | .query (.canonical path) => { lines := [path] }
  | .query (.lsblk .wholeType _) => prints "disk"
  | .query (.lsblk .mounts disk) => { lines := [disk] }
  | .query (.lsblk .types disk) => { lines := [disk ++ text " disk"] }
  | .query (.lsblk .partTypes disk) => { lines := [disk ++ text "1 " ++ espTypeGuid] }
  | .query .rootSource => prints "airootfs"
  | .query (.size _) => prints "500000000000"
  | .query (.firstInLargest _) => prints "2048"
  | .query (.endOfLargest _) => prints "500000000"
  | .query (.sectorSize _) => prints "512"
  | .query (.date day) => { lines := [day] }
  | .query (.bundle _ _ _) => { lines := [text "0 aurade.pkg aurade", text "0 ash.pkg chromiumos-ash"] }
  | .query .clock => prints "1000"
  | .query (.capacity _) => prints "500000000000"
  | .query (.packageList _ _) => prints "1 https://archive"
  | .query (.packages path) => { lines := [path ++ text "/base.pkg.tar.zst"] }
  | .query .keyringFailure => { ok := false }
  | .query (.contains pattern _) => { ok := pattern ≠ text "repo\\.aurade\\.invalid" }
  | .query (.inTarget _ _) => prints "root L"
  | .query .secureBoot => prints "disabled"
  | .command (.mktemp template) => { lines := [template] }
  | _ => {}

/-- The arguments of a short command line, for a user and a disk `/dev/sda`. -/
def calmArgs (more : List String) : List Bytes :=
  (["--target", "/dev/sda", "--username", "me", "--password-hash-file", "/root/hash", "--arch-snapshot",
    "2026/01/02", "--allow-unsigned"] ++ more).map text

end Aurade.Installer
