import Aurade.Foundations.Bytes
import Aurade.Foundations.History
import Mathlib.Data.List.DropRight

/-!
# What the engine calls

`aurade-install` is a shell script: what it does to a machine it does by calling programs, and what
it knows of it are their exit statuses and what they print. A `Call` is one such program with its
arguments, or one record appended to the install journal.

* `Query`: programs that look and change nothing.
* `Command`: programs that change something. `Command.places` is what.
* `Reply`: the exit status, the lines printed, and a signal the shell was sent meanwhile.
-/

namespace Aurade.Installer

/-! ## Words and lines -/

/-- The characters that part words. -/
def isBlank (b : UInt8) : Bool := b = 32 || b = 9

/-- The fields of a line, as `awk` counts them. -/
def fields (line : Bytes) : List Bytes := (line.splitOnP isBlank).filter (· ≠ [])

/-- What `read -r a` makes of a line. -/
def readOne (line : Bytes) : Bytes := (line.dropWhile isBlank).rdropWhile isBlank

/-- What `read -r a b` makes of a line: the first word, and the rest of the line. -/
def readPair (line : Bytes) : Bytes × Bytes :=
  let line := line.dropWhile isBlank
  (line.takeWhile fun b => !isBlank b, readOne (line.dropWhile fun b => !isBlank b))

/-- A word: at least one character, and none that parts words. -/
def IsWord (w : Bytes) : Prop := w ≠ [] ∧ ∀ b ∈ w, isBlank b = false

instance (w : Bytes) : Decidable (IsWord w) := inferInstanceAs (Decidable (_ ∧ _))

theorem fields_word {w : Bytes} (hw : IsWord w) : fields w = [w] := by
  rw [fields, List.splitOnP_eq_singleton hw.2]
  simp [hw.1]

theorem fields_word_blank {w : Bytes} (hw : IsWord w) {b : UInt8} (hb : isBlank b = true)
    (rest : Bytes) : fields (w ++ b :: rest) = w :: fields rest := by
  rw [fields, List.splitOnP_append_cons_of_forall_mem hw.2 b hb rest]
  simp [fields, hw.1]

theorem fields_blank {b : UInt8} (hb : isBlank b = true) (rest : Bytes) :
    fields (b :: rest) = fields rest := by
  rw [fields, ← List.nil_append (b :: rest),
    List.splitOnP_append_cons_of_forall_mem (by simp) b hb rest]
  simp [fields]

/-- Blanks in front are no field. -/
theorem fields_spaces (n : ℕ) (rest : Bytes) :
    fields (List.replicate n 32 ++ rest) = fields rest := by
  induction n with
  | zero => rfl
  | succ n ih => rw [List.replicate_succ, List.cons_append, fields_blank rfl, ih]

/-- A word set off by blanks is the first field. -/
theorem fields_padded {w : Bytes} (hw : IsWord w) (n : ℕ) (rest : Bytes) :
    fields (w ++ (List.replicate (n + 1) 32 ++ rest)) = w :: fields rest := by
  rw [List.replicate_succ, List.cons_append, fields_word_blank hw rfl, fields_spaces]

/-! ## Looking -/

/-- The tests of `[[ … ]]` on a path. -/
inductive FileTest
  | present
  | readable
  | writable
  | executable
  | regular
  | directory
  | blockDevice
  | nonempty
  | symlink
  deriving DecidableEq

/-- What the engine has `lsblk` list, with its options. -/
inductive Listing
  /-- `-dnro TYPE`: the type of the device itself -/
  | wholeType
  /-- `-lnpo NAME,MOUNTPOINTS`: every device of the tree below, and where it is mounted -/
  | mounts
  /-- `-lnpo NAME,TYPE`: every device of the tree below, and its type -/
  | types
  /-- `-lnpo NAME,PARTTYPE` -/
  | partTypes
  /-- `-lnpo NAME,PARTLABEL` -/
  | partLabels
  /-- `-snpo NAME`: the device, and what it rests on drawn as a tree -/
  | restsOn
  /-- `-dnro MODEL`, `SERIAL`, `TRAN` and `WWN`: what the log and the journal call the disk -/
  | identity
  deriving DecidableEq

/-- Programs that look and change nothing. -/
inductive Query
  /-- `EUID` -/
  | user
  /-- A test of `[[ … ]]`. -/
  | test (what : FileTest) (path : Bytes)
  /-- `readlink -f -- PATH` -/
  | canonical (path : Bytes)
  /-- `command -v PROGRAM` -/
  | program (name : Bytes)
  /-- `lsblk` -/
  | lsblk (what : Listing) (device : Bytes)
  /-- `findmnt -nro SOURCE / | sed 's/\[.*//'` -/
  | rootSource
  /-- `swapon --show=NAME --noheadings` -/
  | swaps
  /-- `blockdev --getsize64 DEVICE` -/
  | size (device : Bytes)
  /-- `sgdisk --first-in-largest DISK` -/
  | firstInLargest (disk : Bytes)
  /-- `sgdisk --end-of-largest DISK` -/
  | endOfLargest (disk : Bytes)
  /-- `blockdev --getss DISK` -/
  | sectorSize (disk : Bytes)
  /-- `date -u -d DATE +%Y/%m/%d` -/
  | date (day : Bytes)
  /-- `find PATH -maxdepth 0 -perm /077 -print -quit`: the path again when others may use it -/
  | openToOthers (path : Bytes)
  /-- The `awk` test that the file holds one `crypt(3)` hash. -/
  | isHash (path : Bytes)
  /-- The bundle against its lock: every package there with its digest and its data, and the key and
  the signatures where they are asked for. It prints the lines of the lock. -/
  | bundle (lock dir : Bytes) (signed : Bool)
  /-- The packages the bundle depends on and does not hold. -/
  | dependencies (lock dir : Bytes)
  /-- `aurade_hw_detect`: the packages the machine needs. -/
  | hardware
  /-- `aurade_hw_detect`: the services the machine needs. -/
  | hardwareServices
  /-- `btrfs filesystem mkswapfile --help` -/
  | mkswapfileHelp
  /-- `bootctl is-secure-boot` -/
  | secureBoot
  /-- `efi_boolean NAME` -/
  | efiBoolean (name : Bytes)
  /-- `bootctl --help | grep -Fq -- --secure-boot-auto-enroll` -/
  | autoEnroll
  /-- `openssl pkey`: the digest of the public half of a private key. -/
  | publicOfKey (path : Bytes)
  /-- `openssl x509`: the digest of the public key in a certificate. -/
  | publicOfCert (path : Bytes)
  /-- `aurade_workspace_capacity_bytes PATH` -/
  | capacity (path : Bytes)
  /-- `MemTotal` of `/proc/meminfo`, in KiB. -/
  | memory
  /-- `pacman -Sp --print-format '%s %l'`: a line for every package. -/
  | packageList (config : Bytes) (packages : List Bytes)
  /-- `curl --head URL` -/
  | probe (url : Bytes)
  /-- `du -sb PATH` -/
  | used (path : Bytes)
  /-- `find PATH -name '*.pkg.tar.*'`: the packages that arrived. -/
  | packages (path : Bytes)
  /-- `gpgv --keyring RING SIGNATURE PACKAGE` -/
  | signature (ring package : Bytes)
  /-- `pacman_keyring_failure LOG` -/
  | keyringFailure
  /-- `aurade_keymap_xkb KEYMAP` -/
  | keymapXkb (keymap : Bytes)
  /-- `aurade_badge_code`, `aurade_badge_rows` -/
  | badge (seed : Bytes)
  /-- `grep -q PATTERN PATH` -/
  | contains (pattern path : Bytes)
  /-- The shell's expansion of `DIR/PREFIX*`. -/
  | glob (dir start : Bytes)
  /-- `blkid -s UUID -o value DEVICE` -/
  | uuid (device : Bytes)
  /-- `cryptsetup luksUUID DEVICE` -/
  | luksUuid (device : Bytes)
  /-- Where on the disk the swap file starts: `btrfs inspect-internal map-swapfile`, `filefrag`. -/
  | swapOffset (path : Bytes)
  /-- `vendor_id` of `/proc/cpuinfo` -/
  | cpuVendor
  /-- `date -u +%Y-%m-%dT%H:%M:%SZ` -/
  | now
  /-- `date +%s` -/
  | clock
  /-- `arch-chroot ROOT PROGRAM …`, where the program only looks. -/
  | inTarget (root : Bytes) (argv : List Bytes)
  deriving DecidableEq

/-! ## Changing -/

/-- The filesystems a root can have. -/
inductive FileSystem
  | btrfs
  | ext4
  | xfs
  deriving DecidableEq

/-- Programs that change something. -/
inductive Command
  /-- `wipefs --all --force DISK` -/
  | wipefs (disk : Bytes)
  /-- `sgdisk --zap-all DISK` -/
  | zapAll (disk : Bytes)
  /-- `sgdisk --clear --new=1:1MiB:+1GiB --typecode=1:ef00 --change-name=1:AURADE_ESP --new=2:0:0
  --typecode=2:TYPE --change-name=2:AURADE_ROOT DISK` -/
  | newTable (rootType : ℕ) (disk : Bytes)
  /-- `sgdisk --largest-new=0 --typecode=0:TYPE --change-name=0:AURADE_ROOT DISK` -/
  | largestNew (rootType : ℕ) (disk : Bytes)
  /-- `partprobe DISK` -/
  | partprobe (disk : Bytes)
  /-- `udevadm settle` -/
  | settle
  /-- `mkfs.fat -F 32 -n AURADE_ESP DEVICE` -/
  | mkfsFat (device : Bytes)
  /-- `mkfs.btrfs -f`, `mkfs.ext4 -F` or `mkfs.xfs -f`, with `-L AURADE_ROOT DEVICE` -/
  | mkfs (fs : FileSystem) (device : Bytes)
  /-- `cryptsetup luksFormat --type luks2 --batch-mode --key-file FILE DEVICE` -/
  | luksFormat (keyFile device : Bytes)
  /-- `cryptsetup open --key-file FILE DEVICE NAME` -/
  | luksOpen (keyFile device name : Bytes)
  /-- `cryptsetup close NAME` -/
  | luksClose (name : Bytes)
  /-- `mount -o OPTIONS DEVICE DIR` -/
  | mount (options : Option Bytes) (device dir : Bytes)
  /-- `umount DIR`, `umount -R DIR` -/
  | umount (recursive : Bool) (dir : Bytes)
  /-- `btrfs subvolume create PATH` -/
  | subvolume (path : Bytes)
  /-- `btrfs subvolume snapshot -r SOURCE PATH` -/
  | snapshot (source path : Bytes)
  /-- `btrfs filesystem mkswapfile --size MIB --uuid clear PATH` -/
  | mkswapfile (mib : ℕ) (path : Bytes)
  /-- `fallocate -l MIB PATH` -/
  | fallocate (mib : ℕ) (path : Bytes)
  /-- `dd if=/dev/zero of=PATH bs=1M count=MIB` -/
  | zeros (mib : ℕ) (path : Bytes)
  /-- `mkswap PATH` -/
  | mkswap (path : Bytes)
  /-- `install -d -m MODE PATH…` -/
  | installDir (mode : ℕ) (paths : List Bytes)
  /-- `install -m MODE SOURCE PATH`, with `-D` or without -/
  | install (mode : ℕ) (source path : Bytes)
  /-- `cp SOURCE PATH`, `cp -a` -/
  | copy (source path : Bytes)
  /-- `mv -f`, `rm -f`, `rm -rf` -/
  | remove (paths : List Bytes)
  /-- `chmod MODE PATH` -/
  | chmod (mode : Bytes) (path : Bytes)
  /-- `mktemp -d TEMPLATE`: it prints the directory it made. -/
  | mktemp (template : Bytes)
  /-- `> PATH` -/
  | write (content path : Bytes)
  /-- `>> PATH` -/
  | append (content path : Bytes)
  /-- `sed -i EXPRESSION PATH` -/
  | edit (expression path : Bytes)
  /-- `openssl req -new -x509`: a key and its certificate. -/
  | makeKey (key cert : Bytes)
  /-- `sbsign` and `sbverify`: the signed copy of a file. -/
  | sign (key cert source path : Bytes)
  /-- `pacman-key --gpgdir DIR --init`, `--populate archlinux` -/
  | pacmanKey (dir : Bytes) (populate : Bool)
  /-- `pacman --config FILE --cachedir DIR -Syy` -/
  | refresh (config cache db : Bytes)
  /-- `pacman --config FILE --cachedir DIR -Sw`: it prints a line now and then. -/
  | download (config cache : Bytes) (packages : List Bytes)
  /-- `repo-add DATABASE PACKAGE…` -/
  | repoAdd (database : Bytes) (packages : List Bytes)
  /-- `pacstrap -M -G -C FILE ROOT PACKAGE…`: it prints how many packages are done. -/
  | pacstrap (config root : Bytes) (packages : List Bytes)
  /-- `genfstab -U ROOT > PATH` -/
  | genfstab (root path : Bytes)
  /-- `arch-chroot ROOT PROGRAM …` -/
  | chroot (root : Bytes) (argv : List Bytes)
  /-- `arch-chroot ROOT chpasswd --encrypted`, fed from the file -/
  | chpasswd (root username hashFile : Bytes)
  /-- `bootctl --root=ROOT --esp-path=/boot --no-variables … install` -/
  | bootctl (root : Bytes) (enroll : Bool)
  /-- `aurade_wifi_copy_profiles ROOT` -/
  | copyProfiles (root : Bytes)
  /-- `sync` -/
  | sync
  /-- `aurade-rate-sampler` in the background: the file of rates. -/
  | startSampler (rates : Bytes)
  /-- `kill PID`, `gpgconf --kill all`: the engine's own helpers. -/
  | stopHelpers
  deriving DecidableEq

/-- Something that can be changed: what is on a device, or what is at a path. -/
inductive Place
  | device (name : Bytes)
  | path (name : Bytes)
  deriving DecidableEq

namespace Command

/-- What a command changes. -/
def places : Command → List Place
  | .wipefs d | .zapAll d | .newTable _ d | .largestNew _ d | .partprobe d => [.device d]
  | .settle | .sync | .stopHelpers => []
  | .mkfsFat d | .mkfs _ d | .luksFormat _ d => [.device d]
  | .luksOpen _ d name => [.device d, .device name]
  | .luksClose name => [.device name]
  | .mount _ d dir => [.device d, .path dir]
  | .umount _ dir => [.path dir]
  | .subvolume p | .snapshot _ p | .mkswapfile _ p | .fallocate _ p | .zeros _ p | .mkswap p => [.path p]
  | .installDir _ ps | .remove ps => ps.map .path
  | .install _ _ p | .copy _ p | .chmod _ p | .mktemp p => [.path p]
  | .write _ p | .append _ p | .edit _ p => [.path p]
  | .makeKey k c => [.path k, .path c]
  | .sign _ _ _ p => [.path p]
  | .pacmanKey dir _ => [.path dir]
  | .refresh _ cache db => [.path cache, .path db]
  | .download _ cache _ => [.path cache]
  | .repoAdd d _ | .startSampler d => [.path d]
  | .pacstrap _ root _ => [.path root]
  | .genfstab _ p => [.path p]
  | .chroot root _ | .chpasswd root _ _ | .bootctl root _ | .copyProfiles root => [.path root]

end Command

/-! ## Calls and their answers -/

/-- The signals the shell traps. -/
inductive Signal
  | int
  | term
  deriving DecidableEq

/-- How a program ended. -/
structure Reply where
  /-- The exit status was zero. -/
  ok : Bool := true
  /-- What it printed. -/
  lines : List Bytes := []
  /-- The signal the shell was sent while it ran. -/
  signal : Option Signal := none
  deriving DecidableEq

/-- The first line printed, as `$( )` keeps it. -/
def Reply.line (r : Reply) : Bytes := r.lines.headD []

end Aurade.Installer
