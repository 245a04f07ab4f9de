import RtSpark.Audio.Model.Es8388
/-!
# The sound device

`drv_sound.c`: what its operations do to the codec. A volume set is kept
in the device as well, and asked for at the codec.
-/

namespace RtSpark

namespace Audio

/-- `struct sound_device`, without the fields the mixer does not use, and
the codec behind it. -/
structure SoundDevice where
  volume : UInt8
  regs : Regs

/-- `AUDIO_STREAM_REPLAY`. -/
def audioStreamReplay : ℤ := 0

def soundInit (sndDev : SoundDevice) : SoundDevice :=
  { sndDev with regs := es8388Init sndDev.regs }

def soundStart (stream : ℤ) (sndDev : SoundDevice) : SoundDevice :=
  if stream = audioStreamReplay then
    { sndDev with regs := es8388Start .dac sndDev.regs } else sndDev

def soundStop (stream : ℤ) (sndDev : SoundDevice) : SoundDevice :=
  if stream = audioStreamReplay then
    { sndDev with regs := es8388Stop .dac sndDev.regs } else sndDev

/-- `sound_configure` of `AUDIO_MIXER_VOLUME`. -/
def soundConfigureVolume (value : ℤ) (sndDev : SoundDevice) : SoundDevice :=
  let volume := UInt8.ofInt value
  { volume := volume, regs := es8388VolumeSet volume sndDev.regs }

/-- `sound_getcaps` of `AUDIO_MIXER_VOLUME`. -/
def soundGetcapsVolume (sndDev : SoundDevice) : ℤ := (es8388VolumeGet sndDev.regs).toNat

/-! ## Calls -/

/-- A call to the sound device or past it to the codec. -/
inductive SoundCall where
  | soundInit
  | soundStart (stream : ℤ)
  | soundStop (stream : ℤ)
  | setVoiceMute (enable : ℤ)
  | fmtSet (mode : Es8388Mode) (fmt : Es8388Format)
  | configureVolume (v : UInt8)

def soundStep (sndDev : SoundDevice) : SoundCall → SoundDevice
  | .soundInit => soundInit sndDev
  | .soundStart stream => soundStart stream sndDev
  | .soundStop stream => soundStop stream sndDev
  | .setVoiceMute enable => { sndDev with regs := es8388SetVoiceMute enable sndDev.regs }
  | .fmtSet mode fmt => { sndDev with regs := es8388FmtSet mode fmt sndDev.regs }
  | .configureVolume v => soundConfigureVolume v.toNat sndDev

def soundRun (sndDev : SoundDevice) (calls : List SoundCall) : SoundDevice :=
  calls.foldl soundStep sndDev

end Audio

end RtSpark
